import Zebrafish.Lib.Session
import Zebrafish.Toml.Lawful
import Zebrafish.ConfigTool.Eval

/-!
# Zebrafish.ConfigTool.Variables

The variables a script gets from `eval "$(zebrafish-config list <section>
--format shell)"`.

`Eval` says what the variables that are assigned get.  Here it is the other way
round: given a variable, `valueOf_sectionVars` says whether a section assigns
it, and what.  This needs that a name stands for one path only, of all the
paths a configuration could have (`slot_inj`), not only of those in it.
-/

namespace Zebrafish.ConfigTool

open Toml Shell

/-! ## names of paths -/

def Leaf.isCount : Leaf → Bool
  | .scalar _ => false
  | .count _ => true

/-- The parts of a name, of the scalar at a path or of the length of the array
there. -/
def varParts (path : List Segment) (count : Bool) : List String :=
  path.map Segment.part ++ if count then ["COUNT"] else []

def varName (path : List Segment) (count : Bool) : String := joinNames (varParts path count)

/-- The parts of a name, from the path. -/
theorem parts_eq (l : List Segment × Leaf) : parts l = varParts l.1 l.2.isCount := by
  obtain ⟨path, leaf⟩ := l
  cases leaf <;> simp [parts, varParts, Leaf.isCount]

/-- A path where a type has a scalar, or an array. -/
def HasSlot (t : Ty) (path : List Segment) (count : Bool) : Prop :=
  ∃ t', typeAt path t = some t' ∧ isArrayTy t' = count ∧ isTableTy t' = false

/-- A value that is there has a slot. -/
theorem HasSlot.of_leaf {t : Ty} {v w : Value} {path : List Segment} {leaf : Leaf}
    (ht : t.every tidyFields) (hv : Shaped t v) (hw : walkSegments path v = some w)
    (hleaf : leafOf w = some leaf) : HasSlot t path leaf.isCount := by
  obtain ⟨t', hat, hs⟩ := shaped_walk distinctFields_of_tidy ht hv hw
  refine ⟨t', hat, ?_⟩
  cases t' with
  | string => obtain ⟨s, rfl⟩ := hs; cases hleaf; exact ⟨rfl, rfl⟩
  | boolean => obtain ⟨b, rfl⟩ := hs; cases hleaf; exact ⟨rfl, rfl⟩
  | unsigned bits => obtain ⟨n, rfl, _⟩ := hs; cases hleaf; exact ⟨rfl, rfl⟩
  | array t => obtain ⟨items, rfl, _⟩ := hs; cases hleaf; exact ⟨rfl, rfl⟩
  | table fields => obtain ⟨l, rfl, _⟩ := hs; cases hleaf

/-- How the name of a count ends. -/
theorem spelled_count : spelled (varParts [] true) = ['_', 'C', 'O', 'U', 'N', 'T'] := by decide

/-- The names below a type hang together with its own. -/
theorem HasSlot.hangs {t : Ty} {path : List Segment} {count : Bool} (h : HasSlot t path count) :
    Hangs (isArrayTy t) (spelled (varParts path count)) where
  underscore := by
    cases varParts path count with
    | nil => exact Or.inl rfl
    | cons s ss => exact Or.inr ⟨_, spelled_cons s ss⟩
  array := by
    intro harr
    obtain ⟨t', hat, hcount, _⟩ := h
    cases t with
    | array t =>
        cases path with
        | nil =>
            cases hat
            subst hcount
            exact ⟨'C', ['O', 'U', 'N', 'T'], spelled_count, Or.inr rfl⟩
        | cons seg path =>
            cases seg with
            | field k => cases hat
            | index i =>
                obtain ⟨c, s, hdigits, hc⟩ := digits_cons i
                have hparts : varParts (.index i :: path) count =
                    toString i :: varParts path count := rfl
                rw [hparts, spelled_cons, hdigits]
                exact ⟨c, _, rfl, Or.inl hc⟩
    | _ => cases harr

/-- The slot of a list element is one of its type. -/
theorem HasSlot.index {t : Ty} {i : Nat} {path : List Segment} {count : Bool}
    (h : HasSlot (.array t) (.index i :: path) count) : HasSlot t path count := h

/-- The slot of a field is one of its type. -/
theorem HasSlot.field {fields : List (String × Presence × Ty)} {k : String}
    {path : List Segment} {count : Bool} (h : HasSlot (.table fields) (.field k :: path) count) :
    ∃ f, fields.lookup k = some f ∧ HasSlot f.2 path count := by
  obtain ⟨t', hat, hslot⟩ := h
  obtain ⟨f, hf, hat⟩ := Option.bind_eq_some_iff.mp hat
  exact ⟨f, hf, t', hat, hslot⟩

/-- Fields of a tidy struct that differ stay apart. -/
theorem apart_of_tidy {fields : List (String × Presence × Ty)} (h : tidyFields fields)
    {k k' : String} {f f' : Presence × Ty} (hf : fields.lookup k = some f)
    (hf' : fields.lookup k' = some f') (hne : k ≠ k') :
    apartKeys k (isArrayTy f.2) k' ∧ apartKeys k' (isArrayTy f'.2) k := by
  simp only [tidyFields, Bool.and_eq_true, decide_eq_true_eq] at h
  have hsymm : Std.Symm fun f g : String × Presence × Ty =>
      apartKeys f.1 (isArrayTy f.2.2) g.1 = true ∧ apartKeys g.1 (isArrayTy g.2.2) f.1 = true :=
    ⟨fun _ _ hfg => ⟨hfg.2, hfg.1⟩⟩
  have hall := h.2.forall
  have hne' : (k, f) ≠ (k', f') := by
    intro heq
    exact hne (Prod.mk.inj heq).1
  obtain ⟨hapart, hapart'⟩ := hall (Assoc.mem_of_lookup hf) (Assoc.mem_of_lookup hf') hne'
  exact ⟨hapart, hapart'⟩

/-- How a field is spelled. -/
theorem spelled_field (k : String) (path : List Segment) (count : Bool) :
    spelled (varParts (.field k :: path) count) =
      '_' :: ((mangle k).toList ++ spelled (varParts path count)) := spelled_cons _ _

/-- How an index is spelled. -/
theorem spelled_index (i : Nat) (path : List Segment) (count : Bool) :
    spelled (varParts (.index i :: path) count) =
      '_' :: ((toString i).toList ++ spelled (varParts path count)) := spelled_cons _ _

/-- A name below an array is not that of its length. -/
theorem spelled_count_ne (i : Nat) (path : List Segment) (count : Bool) :
    spelled (varParts [] true) ≠ spelled (varParts (.index i :: path) count) := by
  intro heq
  obtain ⟨c, s, hdigits, hc⟩ := digits_cons i
  rw [spelled_index, hdigits, spelled_count] at heq
  simp only [List.cons_append, List.cons.injEq, true_and] at heq
  rw [← heq.1] at hc
  cases hc

/-- Different numbers have different digits. -/
theorem digits_inj {i j : Nat} (h : (toString i).toList = (toString j).toList) : i = j := by
  have hnum := congrArg Rust.parseDigits h
  rw [show (toString i).toList = i.repr.toList from rfl,
    show (toString j).toList = j.repr.toList from rfl, Rust.parseDigits_repr,
    Rust.parseDigits_repr] at hnum
  exact Option.some.inj hnum

/-- Different paths of a tidy type have different names. -/
theorem slot_inj {t : Ty} (ht : t.every tidyFields) {p q : List Segment} {a b : Bool}
    (hp : HasSlot t p a) (hq : HasSlot t q b)
    (h : spelled (varParts p a) = spelled (varParts q b)) : p = q := by
  induction p generalizing t q with
  | nil =>
      cases q with
      | nil => rfl
      | cons seg q =>
          obtain ⟨t', hat, ha, htab⟩ := hp
          obtain ⟨t'', hat', _⟩ := hq
          cases hat
          cases t with
          | table fields => cases htab
          | array t =>
              cases ha
              cases seg with
              | field k => cases hat'
              | index i => exact absurd h (spelled_count_ne i q b)
          | string | boolean | unsigned bits => cases seg <;> cases hat'
  | cons seg p ih =>
      cases t with
      | string | boolean | unsigned bits => obtain ⟨t', hat, _⟩ := hp; cases seg <;> cases hat
      | array t =>
          cases seg with
          | field k => obtain ⟨t', hat, _⟩ := hp; cases hat
          | index i =>
              cases q with
              | nil =>
                  obtain ⟨t', hat, hb, _⟩ := hq
                  cases hat
                  cases hb
                  exact absurd h.symm (spelled_count_ne i p a)
              | cons seg' q =>
                  cases seg' with
                  | field k => obtain ⟨t', hat, _⟩ := hq; cases hat
                  | index j =>
                      rw [spelled_index, spelled_index] at h
                      have htail := (List.cons.inj h).2
                      have hij := append_hangs_inj (underscore_not_mem_digits i)
                        (underscore_not_mem_digits j) hp.index.hangs.underscore
                        hq.index.hangs.underscore htail
                      rw [hij] at htail
                      rw [digits_inj hij,
                        ih (t := t) ht hp.index hq.index (List.append_cancel_left htail)]
      | table fields =>
          simp only [Ty.every, Bool.and_eq_true] at ht
          cases seg with
          | index i => obtain ⟨t', hat, _⟩ := hp; cases hat
          | field k =>
              cases q with
              | nil =>
                  obtain ⟨t', hat, _, htab⟩ := hq
                  cases hat
                  cases htab
              | cons seg' q =>
                  cases seg' with
                  | index j => obtain ⟨t', hat, _⟩ := hq; cases hat
                  | field k' =>
                      obtain ⟨f, hf, hp⟩ := hp.field
                      obtain ⟨f', hf', hq⟩ := hq.field
                      rw [spelled_field, spelled_field] at h
                      have htail := (List.cons.inj h).2
                      by_cases hk : k = k'
                      · subst hk
                        rw [hf] at hf'
                        cases hf'
                        rw [ih (every_of_mem ht.2 (Assoc.mem_of_lookup hf)) hp hq
                          (List.append_cancel_left htail)]
                      · obtain ⟨hapart, hapart'⟩ := apart_of_tidy ht.1 hf hf' hk
                        exact absurd htail (ne_of_apart hapart hapart' hp.hangs hq.hangs)

/-- What stands at a path has one name. -/
theorem HasSlot.count_eq {t : Ty} {path : List Segment} {a b : Bool} (ha : HasSlot t path a)
    (hb : HasSlot t path b) : a = b := by
  obtain ⟨t', hat, rfl, _⟩ := ha
  obtain ⟨t'', hat', rfl, _⟩ := hb
  rw [hat] at hat'
  rw [Option.some.inj hat']

/-! ## words -/

/-- NULs may be dropped before the quotes are escaped or after. -/
theorem clean_flatMap_quotes (cs : List Char) :
    clean (cs.flatMap fun c => if c = '\'' then ['\'', '\\', '\'', '\''] else [c]) =
      (clean cs).flatMap fun c => if c = '\'' then ['\'', '\\', '\'', '\''] else [c] := by
  induction cs with
  | nil => rfl
  | cons c cs ih =>
      rw [List.flatMap_cons, clean_append, ih]
      by_cases hnul : c = Char.ofNat 0
      · subst hnul
        rfl
      · rw [clean_cons hnul, List.flatMap_cons]
        by_cases hc : c = '\''
        · rw [if_pos hc]
          rfl
        · rw [if_neg hc, clean_cons hnul]
          rfl

/-- What is quoted is assigned as it is, short of NULs. -/
theorem assigns_shellQuote (s : String) : Assigns (shellQuote s) s := by
  by_cases hsafe : s.toList.all isSafe
  · have hquote : shellQuote s = s := by rw [shellQuote, if_pos hsafe]
    have hnul : Char.ofNat 0 ∉ s.toList := by
      intro hmem
      have hc := List.all_eq_true.mp hsafe _ hmem
      revert hc
      decide
    have hmeans := means_shellQuote hnul
    rw [hquote] at hmeans ⊢
    rw [← clean_of_not_mem hnul] at hmeans
    refine ⟨hmeans, ?_⟩
    rw [clean_of_not_mem hnul]
    intro hlast
    have hc := List.all_eq_true.mp hsafe _ (List.mem_of_getLast? hlast)
    revert hc
    decide
  · have hquoted : clean (shellQuote s).toList = singleQuoted (clean s.toList) := by
      have hq : clean ['\''] = ['\''] := by decide
      rw [shellQuote, if_neg hsafe, singleQuoted, ← clean_flatMap_quotes]
      simp [String.toList_append, clean_append, hq, clean_cons]
    have hnul : Char.ofNat 0 ∉ clean s.toList := by simp [clean]
    refine ⟨hquoted ▸ means_singleQuoted hnul, ?_⟩
    rw [hquoted, singleQuoted, List.getLast?_append]
    simp

/-- A word that is written as it is. -/
theorem assigns_self {s : String} (hmeans : Means s.toList s.toList)
    (hnul : Char.ofNat 0 ∉ s.toList) (hnl : '\n' ∉ s.toList) : Assigns s s := by
  refine ⟨by rwa [clean_of_not_mem hnul], ?_⟩
  rw [clean_of_not_mem hnul]
  intro hlast
  exact hnl (List.mem_of_getLast? hlast)

/-- A number is assigned as it is. -/
theorem assigns_digits (n : Nat) : Assigns (toString n) (toString n) := by
  have hdigits : ∀ c ∈ (toString n).toList, c.isDigit := by
    intro c hc
    have hlist : (toString n).toList = Nat.toDigits 10 n := Nat.toList_repr
    rw [hlist] at hc
    exact Nat.isDigit_of_mem_toDigits (by decide) (by decide) hc
  refine assigns_self (means_digits n) ?_ ?_ <;> intro hmem <;> have hc := hdigits _ hmem <;>
    revert hc <;> decide

/-- A truth value is assigned as it is. -/
theorem assigns_boolText (b : Bool) : Assigns (boolText b) (boolText b) :=
  assigns_self (means_boolText b) (by cases b <;> decide) (by cases b <;> decide)

/-- The line of a leaf assigns its text, short of its NULs. -/
theorem Leaf.assigns (D : Display) {t : Ty} {v : Value} {leaf : Leaf} (hs : Shaped t v)
    (hleaf : leafOf v = some leaf) : Assigns (leaf.rendered D) (leaf.text D) := by
  cases t with
  | string =>
      obtain ⟨s, rfl⟩ := hs
      cases hleaf
      exact assigns_shellQuote s
  | boolean =>
      obtain ⟨b, rfl⟩ := hs
      cases hleaf
      exact assigns_boolText b
  | unsigned bits =>
      obtain ⟨n, rfl, _⟩ := hs
      cases hleaf
      exact assigns_digits n
  | array t =>
      obtain ⟨items, rfl, _⟩ := hs
      cases hleaf
      exact assigns_digits items.length
  | table fields =>
      obtain ⟨l, rfl, _⟩ := hs
      cases hleaf

/-! ## sections -/

/-- `zebrafish-config --quiet list <section> --format shell`; it prints nothing
if there is no such section. -/
def listOutput (D : Display) (c : Config) (sec : String) : String :=
  match listShell D c (some sec) with
  | some lines => script lines
  | none => ""

/-- The assignments in it. -/
def sectionVars (D : Display) (c : Config) (sec : String) : Env :=
  match listed c (some sec) with
  | some ls => ls.map fun l => (joinNames (parts l), dropNul (l.2.text D))
  | none => []

/-- Evaluating what `list` prints sets the variables of the section. -/
theorem evalOutput_listOutput (D : Display) (c : Config) (sec : String) (vars : Env) :
    evalOutput vars (listOutput D c sec) = some (vars ++ sectionVars D c sec) := by
  rw [evalOutput, listOutput, sectionVars, listShell_eq]
  cases hls : listed c (some sec) with
  | none =>
      rw [Option.map_none]
      have hnothing : assignments (String.ofList (capture "".toList)) = some [] := by decide
      rw [hnothing]
      rfl
  | some ls =>
      have hscript : script (ls.map (lineOf D)) =
          String.join (ls.map fun l => line (joinNames (parts l)) (l.2.rendered D)) := by
        simp only [script, List.map_map]
        rfl
      have hassigns : ∀ l ∈ ls, validName (joinNames (parts l)).toList ∧
          Assigns (l.2.rendered D) (l.2.text D) := by
        intro l hl
        have hmem := (listed_subset hls).subset hl
        obtain ⟨w, hw, hleaf⟩ := (mem_leaves c.tidy_view.distinctKeys).mp hmem
        obtain ⟨t, _, hs⟩ := shaped_walk distinctFields_of_tidy Config.tidy_ty c.shaped_view hw
        exact ⟨validName_of_mem hmem, Leaf.assigns D hs hleaf⟩
      simp only [Option.map_some]
      rw [hscript, assignments_capture hassigns, Option.map_some]

/-- No variable is set twice. -/
theorem nodup_sectionVars (D : Display) (c : Config) (sec : String) :
    ((sectionVars D c sec).map Prod.fst).Nodup := by
  rw [sectionVars]
  cases hls : listed c (some sec) with
  | none => simp
  | some ls =>
      rw [List.map_map]
      exact ((listed_subset hls).map _).nodup (nodup_names c)

/-- Each stands for a leaf of the section. -/
theorem mem_sectionVars {D : Display} {c : Config} {sec name text : String}
    (h : (name, text) ∈ sectionVars D c sec) :
    ∃ path w leaf, path.head? = some (.field sec) ∧ walkSegments path c.view = some w ∧
      leafOf w = some leaf ∧ name = varName path leaf.isCount := by
  rw [sectionVars] at h
  cases hls : listed c (some sec) with
  | none =>
      rw [hls] at h
      cases h
  | some ls =>
      rw [hls] at h
      obtain ⟨l, hl, heq⟩ := List.mem_map.mp h
      obtain ⟨w, hw, hleaf⟩ :=
        (mem_leaves c.tidy_view.distinctKeys).mp ((listed_subset hls).subset hl)
      refine ⟨l.1, w, l.2, ?_, hw, hleaf, ?_⟩
      · obtain ⟨v, _, rfl⟩ := Option.map_eq_some_iff.mp hls
        obtain ⟨l', _, rfl⟩ := List.mem_map.mp hl
        rfl
      · rw [varName, ← parts_eq]
        exact (Prod.mk.inj heq).1.symm

/-- A slot has a name. -/
theorem HasSlot.ne_nil {path : List Segment} {count : Bool} (h : HasSlot Config.ty path count) :
    varParts path count ≠ [] := by
  cases path with
  | nil =>
      obtain ⟨t, hat, _, htab⟩ := h
      cases hat
      cases htab
  | cons seg path => simp [varParts]

/-- Names stand for one path each. -/
theorem varName_inj {p q : List Segment} {a b : Bool} (hp : HasSlot Config.ty p a)
    (hq : HasSlot Config.ty q b) (h : varName p a = varName q b) : p = q := by
  refine slot_inj Config.tidy_ty hp hq ?_
  rw [← cons_joinNames hp.ne_nil, ← cons_joinNames hq.ne_nil]
  exact congrArg (fun s : String => '_' :: s.toList) h

/-- The text of the variable for a path, in a value. -/
def textIn (D : Display) (path : List Segment) (v : Value) : Option String :=
  ((walkSegments path v).bind leafOf).map fun leaf => dropNul (leaf.text D)

/-- The text of the variable for a path, as a configuration assigns it. -/
def textAt (D : Display) (path : List Segment) (c : Config) : Option String :=
  textIn D path c.view

/-- **The variables of a section.**  One is assigned when its path is in the
section, and the configuration has something there. -/
theorem valueOf_sectionVars (D : Display) (c : Config) (sec : String) {path : List Segment}
    {count : Bool} (h : HasSlot Config.ty path count) :
    valueOf (sectionVars D c sec) (varName path count) =
      if path.head? = some (.field sec) then textAt D path c else none := by
  have hnone : ∀ hx : ¬ ∃ w leaf, path.head? = some (.field sec) ∧
      walkSegments path c.view = some w ∧ leafOf w = some leaf,
        valueOf (sectionVars D c sec) (varName path count) = none := by
    intro hx
    rw [valueOf_eq_none_iff]
    intro hmem
    obtain ⟨⟨name, text⟩, hmem, rfl⟩ := List.mem_map.mp hmem
    obtain ⟨q, w, leaf, hhead, hw, hleaf, hname⟩ := mem_sectionVars hmem
    have hq := HasSlot.of_leaf Config.tidy_ty c.shaped_view hw hleaf
    have hpath := varName_inj h hq hname
    subst hpath
    exact hx ⟨w, leaf, hhead, hw, hleaf⟩
  split
  · next hhead =>
      rw [textAt, textIn]
      cases hleaf : (walkSegments path c.view).bind leafOf with
      | none =>
          rw [Option.map_none]
          refine hnone ?_
          rintro ⟨w, leaf, _, hw, hwleaf⟩
          rw [hw, Option.bind_some, hwleaf] at hleaf
          cases hleaf
      | some leaf =>
          obtain ⟨w, hw, hwleaf⟩ := Option.bind_eq_some_iff.mp hleaf
          have hslot := HasSlot.of_leaf Config.tidy_ty c.shaped_view hw hwleaf
          have hlists : Lists (some sec) path := by
            rintro name ⟨⟩
            exact hhead
          have hsec : ∃ v, walkSegments [.field sec] c.view = some v := by
            obtain ⟨entries, hview⟩ := c.view_table
            cases path with
            | nil => cases hhead
            | cons seg path =>
                cases hhead
                rw [hview] at hw ⊢
                obtain ⟨v, hv, _⟩ := Option.bind_eq_some_iff.mp hw
                exact ⟨v, by simp [walkSegments, hv]⟩
          obtain ⟨v, hv⟩ := hsec
          have hls : listed c (some sec) = some ((leaves v).map (underSection sec)) := by
            rw [listed, hv, Option.map_some]
          have hmem := mem_listed hls hlists hw hwleaf
          refine valueOf_of_mem (nodup_sectionVars D c sec) ?_
          rw [sectionVars, hls]
          refine List.mem_map.mpr ⟨_, hmem, ?_⟩
          rw [parts_eq, h.count_eq hslot, varName]
  · next hhead =>
      refine hnone ?_
      rintro ⟨w, leaf, hhead', _⟩
      exact hhead hhead'

/-! ## what is at a path -/

theorem dropNul_digits (n : Nat) : dropNul (toString n) = toString n := by
  have hnul : Char.ofNat 0 ∉ (toString n).toList :=
    nul_not_mem_name (all_isNameChar_digits n)
  exact dropNul_of_not_mem hnul

theorem toString_ne_empty (n : Nat) : toString n ≠ "" := by
  intro h
  obtain ⟨d, ds, hcons, _⟩ := digits_cons n
  rw [h] at hcons
  cases hcons

section

variable {α β : Type}

theorem lookup_entry (k k' : String) (v : Option Value) (l : Entries) :
    (entry k v ++ l).lookup k' = if k' = k then v.or (l.lookup k) else l.lookup k' := by
  by_cases h : k' = k
  · subst h
    cases v <;> simp [entry]
  · rw [lookup_entry_append_of_ne h, if_neg h]

/-- The text of the length of a `Vec`, as a number. -/
theorem number_length (n : Nat) :
    number (orDefault "0" (if n = 0 then none else some (toString n))) = n := by
  by_cases h : n = 0
  · subst h
    decide
  · rw [if_neg h, orDefault, if_neg (toString_ne_empty n)]
    exact number_repr n

/-- Below a field is what is written of it. -/
theorem walk_struct {fs : Fields α} {mk : α → β} {fields : β → α} {h : ∀ a, fields (mk a) = a}
    (hd : (fs.tys.map Prod.fst).Nodup) (b : β) (k : String) (tail : List Segment) :
    walkSegments (.field k :: tail) ((Codec.struct fs mk fields h).ser b) =
      ((fs.ser (fields b)).lookup k).bind (walkSegments tail) := by
  rw [Codec.struct, walkSegments, lookup_sortKeys (Fields.nodup_keys_ser hd _)]

/-- Below a `Vec` are its elements. -/
theorem walk_vec (c : Codec β) (l : List β) (i : Nat) (tail : List Segment) :
    (if l.isEmpty then none else some (c.array.ser l)).bind
        (walkSegments (.index i :: tail)) =
      l[i]?.bind fun b => walkSegments tail (c.ser b) := by
  have hitem : ∀ l : List β, (l.map c.ser)[i]?.bind (walkSegments tail) =
      l[i]?.bind fun b => walkSegments tail (c.ser b) := by
    intro l
    rw [List.getElem?_map]
    cases l[i]? <;> rfl
  cases l with
  | nil => simp
  | cons b l => exact hitem (b :: l)

end

/-- The length of a `Vec`. -/
theorem textIn_length {β : Type} (D : Display) (c : Codec β) (l : List β) :
    (if l.isEmpty then none else some (c.array.ser l)).bind (textIn D []) =
      if l.length = 0 then none else some (toString l.length) := by
  have hdigits := dropNul_digits l.length
  cases l <;> simp_all [textIn, walkSegments, leafOf, Leaf.text, Codec.array]

/-- The text of a string. -/
theorem textIn_string (D : Display) (s : String) : textIn D [] (.string s) = some (dropNul s) := by
  simp [textIn, walkSegments, leafOf, Leaf.text, printed]

/-- The text of a number. -/
theorem textIn_nat (D : Display) (n : Nat) : textIn D [] (.integer n) = some (toString n) := by
  have hdigits : dropNul (toString (n : Int)) = toString n := dropNul_digits n
  simpa [textIn, walkSegments, leafOf, Leaf.text, printed] using hdigits

/-- Below a field, and below an index. -/
theorem textIn_of_walk {D : Display} {path tail : List Segment} {v : Value} {w : Option Value}
    (h : walkSegments path v = w.bind (walkSegments tail)) :
    textIn D path v = w.bind (textIn D tail) := by
  rw [textIn, h]
  cases w <;> rfl

/-! ## lists of tables -/

/-- The name of the variable of a field, without the part for the section. -/
theorem varName_element (sec : String) (i : Nat) (k : String) :
    varName [.field sec, .index i, .field k] false =
      mangle sec ++ "_" ++ (toString i ++ ("_" ++ mangle k)) := by
  have hname : varName [.field sec, .index i, .field k] false =
      mangle sec ++ "_" ++ (toString i ++ "_" ++ mangle k) := rfl
  have hassoc : toString i ++ "_" ++ mangle k = toString i ++ ("_" ++ mangle k) :=
    String.append_assoc
  rw [hname, hassoc]

section

variable {β : Type} {codec : Codec β} {l : List β} {sec : String} {v : Value}

/-- The variables of an element of a list. -/
theorem textIn_element (D : Display)
    (h : ∀ tail, walkSegments (.field sec :: tail) v =
      (if l.isEmpty then none else some (codec.array.ser l)).bind (walkSegments tail))
    (i : Nat) (tail : List Segment) :
    textIn D (.field sec :: .index i :: tail) v =
      l[i]?.bind fun b => textIn D tail (codec.ser b) := by
  rw [textIn, h, walk_vec]
  cases l[i]? <;> rfl

/-- The variable of its length. -/
theorem textIn_count (D : Display)
    (h : ∀ tail, walkSegments (.field sec :: tail) v =
      (if l.isEmpty then none else some (codec.array.ser l)).bind (walkSegments tail)) :
    textIn D [.field sec] v = if l.length = 0 then none else some (toString l.length) := by
  rw [textIn_of_walk (h []), textIn_length]

end

end Zebrafish.ConfigTool
