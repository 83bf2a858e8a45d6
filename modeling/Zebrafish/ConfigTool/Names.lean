import Mathlib.Data.List.Pairwise
import Zebrafish.ConfigTool.List

/-!
# Zebrafish.ConfigTool.Names

The names `list --format shell` gives its variables.

A name is a path with its parts joined by underscores, and keys contain
underscores themselves, so distinct paths could collide.  `apartKeys` is the
condition on two sibling keys that rules it out.  Every struct of the schema
meets it (`Config.tidy_ty`), although `WG` and `WG_SERVER` only do because
below an array a name goes on with a digit or with `COUNT`.
-/

namespace Zebrafish.ConfigTool

open Toml

/-! ## spelled-out names -/

/-- Every part of a name behind an underscore. -/
def spelled (ss : List String) : List Char := ss.flatMap fun s => '_' :: s.toList

/-- Names with underscores in front of each. -/
theorem cons_joinNames {ss : List String} (h : ss ≠ []) :
    '_' :: (joinNames ss).toList = spelled ss := by
  induction ss with
  | nil => exact absurd rfl h
  | cons s ss ih =>
      cases ss with
      | nil => simp [joinNames, spelled]
      | cons s' ss =>
          have hrest := ih (by simp)
          rw [joinNames]
          · simp only [String.toList_append, spelled, List.flatMap_cons,
              ← List.cons_append] at hrest ⊢
            rw [← hrest]
            simp
          · simp

/-- One more name. -/
theorem spelled_cons (s : String) (ss : List String) :
    spelled (s :: ss) = '_' :: (s.toList ++ spelled ss) := by
  simp [spelled]

/-- What follows a part of a name: nothing, or an underscore; and below an
array a digit or the `C` of `COUNT` behind that. -/
structure Hangs (isArray : Bool) (s : List Char) : Prop where
  underscore : s = [] ∨ ∃ t, s = '_' :: t
  array : isArray = true → ∃ c t, s = '_' :: c :: t ∧ (c.isDigit ∨ c = 'C')

def isArrayValue : Value → Bool
  | .array _ => true
  | _ => false

/-- A number has a first digit. -/
theorem digits_cons (n : Nat) : ∃ c t, (toString n).toList = c :: t ∧ c.isDigit := by
  have hlist : (toString n).toList = Nat.toDigits 10 n := Nat.toList_repr
  cases h : (toString n).toList with
  | nil => exact absurd (hlist.symm.trans h) Nat.toDigits_ne_nil
  | cons c t =>
      refine ⟨c, t, rfl, ?_⟩
      have hc : c ∈ Nat.toDigits 10 n := by rw [← hlist, h]; exact List.mem_cons_self
      exact Nat.isDigit_of_mem_toDigits (by decide) (by decide) hc

/-- The names of the leaves of a value hang together with its own. -/
theorem hangs_of_mem {v : Value} {l : List Segment × Leaf} (h : l ∈ leaves v) :
    Hangs (isArrayValue v) (spelled (parts l)) where
  underscore := by
    cases parts l with
    | nil => exact Or.inl rfl
    | cons s ss => exact Or.inr ⟨_, spelled_cons s ss⟩
  array := by
    intro harr
    cases v with
    | array items =>
        rw [leaves, List.mem_cons, mem_leavesOfItems] at h
        rcases h with rfl | ⟨j, v, l', _, _, rfl⟩
        · have hparts : parts ([], Leaf.count items.length) = ["COUNT"] := rfl
          rw [hparts]
          exact ⟨'C', ['O', 'U', 'N', 'T'], by decide, Or.inr rfl⟩
        · obtain ⟨c, t, hdigits, hc⟩ := digits_cons (0 + j)
          have hparts : parts (.index (0 + j) :: l'.1, l'.2) = toString (0 + j) :: parts l' := rfl
          rw [hparts, spelled_cons, hdigits]
          exact ⟨c, _, rfl, Or.inl hc⟩
    | _ => cases harr

/-! ## sibling keys -/

/-- No name below `k` is one of `k'` or below it. -/
def apartKeys (k : String) (isArray : Bool) (k' : String) : Bool :=
  let a := (mangle k).toList
  let b := (mangle k').toList
  !(a ++ ['_']).isPrefixOf (b ++ ['_']) ||
    isArray &&
      match b.drop (a.length + 1) with
      | c :: _ => !c.isDigit && c ≠ 'C'
      | [] => false

/-- Keys that are spelled alike are not apart. -/
theorem apartKeys_of_eq {k k' : String} (h : (mangle k').toList = (mangle k).toList)
    (isArray : Bool) : apartKeys k isArray k' = false := by
  have hpre : ((mangle k).toList ++ ['_']).isPrefixOf ((mangle k).toList ++ ['_']) = true :=
    List.isPrefixOf_iff_prefix.mpr (List.prefix_refl _)
  have hdrop : (mangle k).toList.drop ((mangle k).toList.length + 1) = [] :=
    List.drop_eq_nil_of_le (by omega)
  unfold apartKeys
  simp only [h, hpre, hdrop]
  simp

/-- Names that hang on different keys are different. -/
theorem ne_append_of_apart {k k' : String} {isArray : Bool} (h : apartKeys k isArray k')
    {s r s' : List Char} (hs : Hangs isArray s) (hr : (mangle k').toList = (mangle k).toList ++ r) :
    s ≠ r ++ s' := by
  rintro rfl
  cases r with
  | nil =>
      rw [apartKeys_of_eq (by simpa using hr)] at h
      cases h
  | cons c r =>
      unfold apartKeys at h
      simp only [hr] at h
      have hc : c = '_' := by
        rcases hs.underscore with hnil | ⟨t, ht⟩
        · cases hnil
        · exact (List.cons.inj ht).1
      subst hc
      have hpre : ((mangle k).toList ++ ['_']).isPrefixOf
          ((mangle k).toList ++ '_' :: r ++ ['_']) = true := by
        rw [List.isPrefixOf_iff_prefix]
        exact ⟨r ++ ['_'], by simp⟩
      have hdrop : ((mangle k).toList ++ '_' :: r).drop ((mangle k).toList.length + 1) = r := by
        simp [List.drop_append]
      rw [hpre, hdrop] at h
      simp only [Bool.not_true, Bool.false_or, Bool.and_eq_true] at h
      obtain ⟨harr, hnext⟩ := h
      obtain ⟨d, t, ht, hd⟩ := hs.array harr
      cases r with
      | nil => simp at hnext
      | cons e r =>
          simp only [List.cons_append, List.cons.injEq, true_and] at ht
          obtain ⟨rfl, _⟩ := ht
          simp only [Bool.and_eq_true, Bool.not_eq_true', decide_eq_true_eq] at hnext
          rcases hd with hd | hd
          · rw [hnext.1] at hd
            cases hd
          · exact hnext.2 hd

/-- Names below two sibling keys differ. -/
theorem ne_of_apart {k k' : String} {isArray isArray' : Bool} (h : apartKeys k isArray k')
    (h' : apartKeys k' isArray' k) {s s' : List Char} (hs : Hangs isArray s)
    (hs' : Hangs isArray' s') : (mangle k).toList ++ s ≠ (mangle k').toList ++ s' := by
  intro heq
  rcases List.append_eq_append_iff.mp heq with ⟨r, hr, hrs⟩ | ⟨r, hr, hrs⟩
  · exact ne_append_of_apart h hs hr hrs
  · exact ne_append_of_apart h' hs' hr hrs

/-- A value whose tables have keys that stay apart. -/
def Tidy (v : Value) : Prop :=
  ∀ path entries, walkSegments path v = some (.table entries) →
    entries.Pairwise fun e e' =>
      apartKeys e.1 (isArrayValue e.2) e'.1 ∧ apartKeys e'.1 (isArrayValue e'.2) e.1

/-- A tidy value has distinct keys. -/
theorem Tidy.distinctKeys {v : Value} (h : Tidy v) : DistinctKeys v := by
  intro path entries hw
  refine List.Pairwise.map Prod.fst ?_ (h path entries hw)
  rintro e e' ⟨hapart, _⟩ heq
  rw [apartKeys_of_eq (by rw [heq])] at hapart
  cases hapart

/-- An entry of a tidy table is tidy. -/
theorem Tidy.entry {entries : Entries} (h : Tidy (.table entries)) {k : String} {v : Value}
    (hmem : (k, v) ∈ entries) : Tidy v := by
  intro path entries' hw
  have hk := (Assoc.lookup_eq_some_iff_mem (h.distinctKeys [] entries rfl)).mpr hmem
  exact h (.field k :: path) entries' (by simp [walkSegments, hk, hw])

/-- An item of a tidy list is tidy. -/
theorem Tidy.item {items : List Value} (h : Tidy (.array items)) {i : Nat} {v : Value}
    (hi : items[i]? = some v) : Tidy v := by
  intro path entries' hw
  exact h (.index i :: path) entries' (by simp [walkSegments, hi, hw])

/-! ## distinct names -/

/-- The spelled-out names of a value's leaves. -/
def leafNames (v : Value) : List (List Char) := (leaves v).map fun l => spelled (parts l)

/-- The names of a table, entry by entry. -/
theorem names_of_entries (entries : Entries) :
    (leavesOfEntries entries).map (fun l => spelled (parts l)) =
      entries.flatMap fun e =>
        (leafNames e.2).map fun s => '_' :: ((mangle e.1).toList ++ s) := by
  induction entries with
  | nil => rfl
  | cons e entries ih =>
      obtain ⟨k, v⟩ := e
      rw [leavesOfEntries, List.map_append, ih, List.flatMap_cons]
      congr 1
      simp only [leafNames, List.map_map]
      exact List.map_congr_left fun l _ => spelled_cons _ _

/-- The names of a list, item by item. -/
theorem names_of_items (items : List Value) (i : Nat) :
    (leavesOfItems i items).map (fun l => spelled (parts l)) =
      (items.zipIdx i).flatMap fun e =>
        (leafNames e.1).map fun s => '_' :: ((toString e.2).toList ++ s) := by
  induction items generalizing i with
  | nil => rfl
  | cons v items ih =>
      rw [leavesOfItems, List.map_append, ih, List.zipIdx_cons, List.flatMap_cons]
      congr 1
      simp only [leafNames, List.map_map]
      exact List.map_congr_left fun l _ => spelled_cons _ _

/-- Parts without underscores are told apart by what follows them. -/
theorem append_hangs_inj {a b s s' : List Char} (ha : '_' ∉ a) (hb : '_' ∉ b)
    (hs : s = [] ∨ ∃ t, s = '_' :: t) (hs' : s' = [] ∨ ∃ t, s' = '_' :: t)
    (h : a ++ s = b ++ s') : a = b := by
  induction a generalizing b with
  | nil =>
      cases b with
      | nil => rfl
      | cons c b =>
          rcases hs with rfl | ⟨t, rfl⟩
          · cases h
          · cases h
            exact absurd List.mem_cons_self hb
  | cons c a ih =>
      cases b with
      | nil =>
          rcases hs' with rfl | ⟨t, rfl⟩
          · cases h
          · cases h
            exact absurd List.mem_cons_self ha
      | cons d b =>
          simp only [List.cons_append, List.cons.injEq] at h
          simp only [List.mem_cons, not_or] at ha hb
          rw [h.1, ih ha.2 hb.2 h.2]

/-- A number has no underscore. -/
theorem underscore_not_mem_digits (n : Nat) : '_' ∉ (toString n).toList := by
  have hlist : (toString n).toList = Nat.toDigits 10 n := Nat.toList_repr
  rw [hlist]
  exact Nat.underscore_not_in_toDigits

/-- How the names of a value go on after its key. -/
theorem hangs_of_mem_names {v : Value} {s : List Char} (h : s ∈ leafNames v) :
    Hangs (isArrayValue v) s := by
  obtain ⟨l, hl, rfl⟩ := List.mem_map.mp h
  exact hangs_of_mem hl

/-- The leaves of a tidy value have distinct names. -/
theorem nodup_leafNames {v : Value} (h : Tidy v) : (leafNames v).Nodup := by
  induction v using Value.members_induction with
  | string s | integer i | float bits | boolean b | datetime text =>
      simp [leafNames, leaves]
  | table entries ih =>
      rw [leafNames, leaves, names_of_entries, List.nodup_flatMap]
      constructor
      · intro e he
        refine (ih e he (h.entry he)).map ?_
        intro s s' heq
        simpa using heq
      · refine (h [] entries rfl).imp ?_
        rintro e e' ⟨hapart, hapart'⟩ x hx hx'
        obtain ⟨s, hs, rfl⟩ := List.mem_map.mp hx
        obtain ⟨s', hs', heq⟩ := List.mem_map.mp hx'
        exact ne_of_apart hapart hapart' (hangs_of_mem_names hs) (hangs_of_mem_names hs')
          (List.cons.inj heq).2.symm
  | array items ih =>
      have hcount : parts ([], Leaf.count items.length) = ["COUNT"] := rfl
      rw [leafNames, leaves, List.map_cons, names_of_items, hcount, List.nodup_cons,
        List.nodup_flatMap]
      refine ⟨?_, ?_, ?_⟩
      · intro hmem
        obtain ⟨⟨v, i⟩, _, hx⟩ := List.mem_flatMap.mp hmem
        obtain ⟨s, _, heq⟩ := List.mem_map.mp hx
        obtain ⟨c, t, hdigits, hc⟩ := digits_cons i
        rw [hdigits, show spelled ["COUNT"] = ['_', 'C', 'O', 'U', 'N', 'T'] by decide] at heq
        simp only [List.cons_append, List.cons.injEq, true_and] at heq
        rw [heq.1] at hc
        cases hc
      · rintro ⟨v, i⟩ he
        have hi := List.mem_zipIdx_iff_getElem?.mp he
        refine (ih v (List.mem_of_getElem? hi) (h.item hi)).map ?_
        intro s s' heq
        simpa using heq
      · have hidx : (items.zipIdx 0).Pairwise fun e e' => e.2 ≠ e'.2 := by
          have hrange : ((items.zipIdx 0).map Prod.snd).Nodup := by
            rw [List.zipIdx_map_snd]
            exact List.nodup_range'
          exact List.pairwise_map.mp hrange
        refine hidx.imp ?_
        rintro ⟨v, i⟩ ⟨v', i'⟩ hne x hx hx'
        obtain ⟨s, hs, rfl⟩ := List.mem_map.mp hx
        obtain ⟨s', hs', heq⟩ := List.mem_map.mp hx'
        have hdigits := append_hangs_inj (underscore_not_mem_digits i')
          (underscore_not_mem_digits i) (hangs_of_mem_names hs').underscore
          (hangs_of_mem_names hs).underscore (List.cons.inj heq).2
        have hnum := congrArg Rust.parseDigits hdigits
        rw [show (toString i').toList = i'.repr.toList from rfl,
          show (toString i).toList = i.repr.toList from rfl, Rust.parseDigits_repr,
          Rust.parseDigits_repr] at hnum
        exact hne (Option.some.inj hnum).symm

/-! ## the schema -/

def isArrayTy : Ty → Bool
  | .array _ => true
  | _ => false

/-- The fields of a struct have names a shell takes for variables, and stay
apart. -/
def tidyFields (fields : List (String × Presence × Ty)) : Bool :=
  fields.all (fun f => Shell.validName (mangle f.1).toList) &&
    decide (fields.Pairwise fun f g =>
      apartKeys f.1 (isArrayTy f.2.2) g.1 && apartKeys g.1 (isArrayTy g.2.2) f.1)

/-- Tidy fields have distinct keys. -/
theorem distinctFields_of_tidy (fields : List (String × Presence × Ty)) (h : tidyFields fields) :
    distinctFields fields := by
  simp only [tidyFields, Bool.and_eq_true, decide_eq_true_eq] at h
  refine decide_eq_true (List.Pairwise.map Prod.fst ?_ h.2)
  intro f g hfg heq
  rw [apartKeys_of_eq (by rw [heq])] at hfg
  cases hfg.1

/-- A value is a list just if its type is one of lists. -/
theorem isArrayValue_of_shaped {t : Ty} {v : Value} (h : Shaped t v) :
    isArrayValue v = isArrayTy t := by
  cases t with
  | string => obtain ⟨s, rfl⟩ := h; rfl
  | boolean => obtain ⟨b, rfl⟩ := h; rfl
  | unsigned bits => obtain ⟨n, rfl, _⟩ := h; rfl
  | array t => obtain ⟨items, rfl, _⟩ := h; rfl
  | table fields => obtain ⟨l, rfl, _⟩ := h; rfl

/-- What is written for a tidy type is tidy. -/
theorem tidy_of_shaped {t : Ty} {v : Value} (ht : t.every tidyFields) (h : Shaped t v) :
    Tidy v := by
  intro path entries hw
  obtain ⟨t', hat, hs⟩ := shaped_walk distinctFields_of_tidy ht h hw
  have hevery := every_typeAt ht hat
  cases t' with
  | string | boolean | unsigned bits | array t =>
      simp only [Shaped] at hs
      grind
  | table fields =>
      obtain ⟨l, heq, hl⟩ := hs
      cases heq
      simp only [Ty.every, Bool.and_eq_true] at hevery
      have hdistinct := distinctFields_of_tidy fields hevery.1
      have hnodup : (keys (sortKeys l)).Nodup :=
        nodup_keys_sortKeys.mpr (hl.keys_sublist.nodup (of_decide_eq_true hdistinct))
      have hpair := hevery.1
      simp only [tidyFields, Bool.and_eq_true, decide_eq_true_eq] at hpair
      have hsymm : Std.Symm fun f g : String × Presence × Ty =>
          apartKeys f.1 (isArrayTy f.2.2) g.1 = true ∧ apartKeys g.1 (isArrayTy g.2.2) f.1 = true :=
        ⟨fun _ _ hfg => ⟨hfg.2, hfg.1⟩⟩
      have hall := hpair.2.forall
      have hkeys : (sortKeys l).Pairwise fun e e' => e.1 ≠ e'.1 := List.pairwise_map.mp hnodup
      refine hkeys.imp_of_mem ?_
      rintro ⟨k, x⟩ ⟨k', x'⟩ hx hx' hne
      obtain ⟨p, t, hf, hs⟩ := hl.mem (mem_sortKeys.mp hx)
      obtain ⟨p', t', hf', hs'⟩ := hl.mem (mem_sortKeys.mp hx')
      have hne' : (k, p, t) ≠ (k', p', t') := by
        intro heq
        exact hne (Prod.mk.inj heq).1
      obtain ⟨hapart, hapart'⟩ := hall hf hf' hne'
      rw [isArrayValue_of_shaped hs, isArrayValue_of_shaped hs']
      exact ⟨hapart, hapart'⟩

/-- The structs of the schema are tidy. -/
theorem Config.tidy_ty : Config.ty.every tidyFields := by decide +kernel

/-- A configuration is tidy. -/
theorem Config.tidy_view (c : Config) : Tidy c.view := tidy_of_shaped Config.tidy_ty c.shaped_view

end Zebrafish.ConfigTool
