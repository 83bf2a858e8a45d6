import Zebrafish.ConfigTool.Names
import Zebrafish.ConfigTool.RoundTrip

/-!
# Zebrafish.ConfigTool.Prune

What becomes of a file that is read and written back, said of the file itself.

`tabled` turns arrays that stand for structs into tables, `prune` drops unknown
keys and empty arrays and fills in defaults.  Together they are what `norm`
does to a tree (`norm_eq_prune`), and away from the defaults neither changes
what is at a path (`walk_norm`).
-/

namespace Zebrafish.ConfigTool

open Toml

/-! ## structs as arrays -/

mutual

/-- The tree with structs that are written as arrays turned into tables. -/
def tabled : Value → Ty → Value
  | .array items, .array t => .array (tabledItems items t)
  | .array items, .table fields => .table (tabledRow items fields)
  | .table entries, .table fields => .table (tabledEntries entries fields)
  | v, _ => v

def tabledItems : List Value → Ty → List Value
  | [], _ => []
  | v :: items, t => tabled v t :: tabledItems items t

/-- The items of a struct, under the keys of its fields. -/
def tabledRow : List Value → List (String × Presence × Ty) → Entries
  | v :: items, (k, _, t) :: fields => (k, tabled v t) :: tabledRow items fields
  | _, _ => []

def tabledEntries : Entries → List (String × Presence × Ty) → Entries
  | [], _ => []
  | (k, v) :: entries, fields =>
      (k, match fields.lookup k with
        | some f => tabled v f.2
        | none => v) :: tabledEntries entries fields

end

/-! ## what is dropped and what is filled in -/

/-- Anything but an empty array. -/
def nonEmpty : Value → Option Value
  | .array [] => none
  | v => some v

/-- The fields with a default that are missing. -/
def missing (entries : Entries) (fields : List (String × Presence × Ty)) : Entries :=
  fields.flatMap fun f => entry f.1 <|
    match f.2.1, entries.lookup f.1 with
    | .default d, none => some d
    | _, _ => none

mutual

/-- The tree without unknown keys and empty arrays, and with missing defaults.
Nothing else changes but the order of the keys. -/
def prune : Value → Ty → Value
  | .array items, .array t => .array (pruneItems items t)
  | .table entries, .table fields =>
      .table (sortKeys (pruneEntries entries fields ++ missing entries fields))
  | v, _ => v

def pruneItems : List Value → Ty → List Value
  | [], _ => []
  | v :: items, t => prune v t :: pruneItems items t

def pruneEntries : Entries → List (String × Presence × Ty) → Entries
  | [], _ => []
  | (k, v) :: entries, fields =>
      entry k (match fields.lookup k with
        | some f => nonEmpty (prune v f.2)
        | none => none) ++ pruneEntries entries fields

end

/-! ## both, by list functions -/

/-- A list, item by item. -/
theorem tabledItems_eq (items : List Value) (t : Ty) :
    tabledItems items t = items.map (tabled · t) := by
  induction items with
  | nil => rfl
  | cons v items ih => rw [tabledItems, ih, List.map_cons]

/-- A list is pruned item by item. -/
theorem pruneItems_eq (items : List Value) (t : Ty) :
    pruneItems items t = items.map (prune · t) := by
  induction items with
  | nil => rfl
  | cons v items ih => rw [pruneItems, ih, List.map_cons]

/-- What is made of the value under a key. -/
def tabledUnder (fields : List (String × Presence × Ty)) (k : String) (v : Value) : Value :=
  match fields.lookup k with
  | some f => tabled v f.2
  | none => v

def pruneUnder (fields : List (String × Presence × Ty)) (k : String) (v : Value) : Option Value :=
  (fields.lookup k).bind fun f => nonEmpty (prune v f.2)

/-- A table, entry by entry. -/
theorem tabledEntries_eq (entries : Entries) (fields : List (String × Presence × Ty)) :
    tabledEntries entries fields = entries.map fun e => (e.1, tabledUnder fields e.1 e.2) := by
  induction entries with
  | nil => rfl
  | cons e entries ih => rw [tabledEntries, ih, List.map_cons, tabledUnder]

/-- A table is pruned entry by entry. -/
theorem pruneEntries_eq (entries : Entries) (fields : List (String × Presence × Ty)) :
    pruneEntries entries fields =
      entries.flatMap fun e => entry e.1 (pruneUnder fields e.1 e.2) := by
  induction entries with
  | nil => rfl
  | cons e entries ih =>
      rw [pruneEntries, ih, List.flatMap_cons, pruneUnder]
      cases fields.lookup e.1 <;> rfl

/-- The keys stay as they are. -/
theorem keys_tabledEntries (entries : Entries) (fields : List (String × Presence × Ty)) :
    keys (tabledEntries entries fields) = keys entries := by
  rw [tabledEntries_eq, keys, List.map_map]
  rfl

/-- What is found under a key, made a table where it is to be one. -/
theorem lookup_tabledEntries (entries : Entries) (fields : List (String × Presence × Ty))
    (k : String) :
    (tabledEntries entries fields).lookup k = (entries.lookup k).map (tabledUnder fields k) := by
  rw [tabledEntries_eq]
  induction entries with
  | nil => rfl
  | cons e entries ih =>
      rw [List.map_cons, List.lookup_cons, List.lookup_cons, ih]
      by_cases hk : k = e.1
      · simp [hk]
      · have hbeq : (k == e.1) = false := by simpa using hk
        simp [hbeq]

/-- A list in place of a struct is the table of its fields. -/
theorem tabledRow_eq {fields : List (String × Presence × Ty)} (hd : (fields.map Prod.fst).Nodup)
    (items : List Value) :
    tabledRow items fields = tabledEntries (row items fields) fields := by
  -- the fields before the ones at hand are looked up too, and have other names
  suffices h : ∀ fs rest : List (String × Presence × Ty),
      (∀ f ∈ rest, fs.lookup f.1 = some f.2) → ∀ items,
        tabledRow items rest = (row items rest).map fun e => (e.1, tabledUnder fs e.1 e.2) by
    rw [tabledEntries_eq]
    exact h fields fields (fun f hf => Assoc.lookup_of_mem hd hf) items
  intro fs rest
  induction rest with
  | nil =>
      intro _ items
      cases items <;> rfl
  | cons f rest ih =>
      intro hlook items
      obtain ⟨hf, hrest⟩ := List.forall_mem_cons.mp hlook
      cases items with
      | nil => rfl
      | cons v items =>
          obtain ⟨k, p, t⟩ := f
          rw [tabledRow, ih hrest items]
          simp [row, tabledUnder, hf]

/-- What is found under a key, pruned. -/
theorem lookup_pruneEntries {entries : Entries} (hd : (keys entries).Nodup)
    (fields : List (String × Presence × Ty)) (k : String) :
    (pruneEntries entries fields).lookup k = (entries.lookup k).bind (pruneUnder fields k) := by
  rw [pruneEntries_eq]
  exact lookup_flatMap_entry (pruneUnder fields) hd k

/-- The default of a field that is missing. -/
def missingUnder (entries : Entries) (k : String) (f : Presence × Ty) : Option Value :=
  match f.1, entries.lookup k with
  | .default d, none => some d
  | _, _ => none

/-- A field that is missing has its default, if it has one. -/
theorem lookup_missing (entries : Entries) {fields : List (String × Presence × Ty)}
    (hd : (fields.map Prod.fst).Nodup) (k : String) :
    (missing entries fields).lookup k = (fields.lookup k).bind (missingUnder entries k) :=
  lookup_flatMap_entry (missingUnder entries) hd k

/-- With the defaults put in, the keys are still distinct. -/
theorem nodup_keys_pruned {entries : Entries} {fields : List (String × Presence × Ty)}
    (he : (keys entries).Nodup) (hf : (fields.map Prod.fst).Nodup) :
    (keys (pruneEntries entries fields ++ missing entries fields)).Nodup := by
  have hkept := keys_flatMap_entry (pruneUnder fields) entries
  rw [← pruneEntries_eq] at hkept
  have hfilled := keys_flatMap_entry (missingUnder entries) fields
  rw [keys, List.map_append]
  refine List.Nodup.append (hkept.nodup he) (hfilled.nodup hf) ?_
  -- a field that is filled in was not there
  intro k hk hk'
  obtain ⟨e, hmem, rfl⟩ := List.mem_map.mp hk'
  have hfound := Assoc.lookup_of_mem (hfilled.nodup hf) hmem
  rw [lookup_flatMap_entry (missingUnder entries) hf] at hfound
  obtain ⟨f, _, hmissing⟩ := Option.bind_eq_some_iff.mp hfound
  have habsent : entries.lookup e.1 = none := by
    unfold missingUnder at hmissing
    split at hmissing
    · assumption
    · cases hmissing
  obtain ⟨x, hx, heq⟩ := List.mem_map.mp (hkept.subset hk)
  rw [← heq, Assoc.lookup_of_mem he hx] at habsent
  cases habsent

/-! ## writing back -/

def isVec : Presence → Bool
  | .vec => true
  | _ => false

/-- The fields with an array are those that are left out when it is empty. -/
def listFields (fields : List (String × Presence × Ty)) : Bool :=
  distinctFields fields && fields.all fun f => isVec f.2.1 == isArrayTy f.2.2

/-- A value that is no list is never empty. -/
theorem nonEmpty_norm {t : Ty} {v w : Value} (ht : isArrayTy t = false) (h : norm t v = some w) :
    nonEmpty w = some w := by
  cases t with
  | array t => cases ht
  | table fields =>
      rw [norm_table] at h
      obtain ⟨s, _, h⟩ := Option.bind_eq_some_iff.mp h
      obtain ⟨l, _, rfl⟩ := Option.map_eq_some_iff.mp h
      rfl
  | _ =>
      obtain ⟨rfl, hw⟩ := norm_scalarTy rfl h
      cases w with
      | array items => cases hw
      | _ => rfl

/-- What a field keeps is what is not empty. -/
theorem keep_eq_nonEmpty {p : Presence} {t : Ty} {v w : Value} (hp : isVec p = isArrayTy t)
    (h : norm t v = some w) : p.keep w = nonEmpty w := by
  cases p with
  | vec =>
      cases w with
      | array items => cases items <;> rfl
      | _ => rfl
  | _ => exact (nonEmpty_norm hp.symm h).symm

/-- The fields of a struct, read and written back. -/
theorem sortKeys_normFields {fields : List (String × Presence × Ty)} {entries l : Entries}
    (hfields : listFields fields) (hentries : (keys entries).Nodup)
    (ih : ∀ e ∈ entries, ∀ p t w, (e.1, p, t) ∈ fields → norm t e.2 = some w →
      w = prune (tabled e.2 t) t)
    (h : normFields fields (.byKey entries) = some l) :
    .table (sortKeys l) = prune (.table (tabledEntries entries fields)) (.table fields) := by
  simp only [listFields, Bool.and_eq_true, List.all_eq_true, beq_iff_eq] at hfields
  obtain ⟨hdistinct, hvec⟩ := hfields
  have hd : (fields.map Prod.fst).Nodup := of_decide_eq_true hdistinct
  have he : (keys (tabledEntries entries fields)).Nodup := by
    rw [keys_tabledEntries]
    exact hentries
  rw [prune]
  refine congrArg Value.table (sortKeys_eq_of_lookup ((keys_normFields h).nodup hd)
    (nodup_keys_pruned he hd) fun k => ?_)
  rw [lookup_of_normFields h hd, List.lookup_append, lookup_pruneEntries he, lookup_missing _ hd,
    lookup_tabledEntries]
  cases hf : fields.lookup k with
  | none =>
      cases entries.lookup k with
      | none => rfl
      | some v => simp [pruneUnder, hf]
  | some f =>
      obtain ⟨p, t⟩ := f
      have hmem := Assoc.mem_of_lookup hf
      have hread := lookup_normFields h hd hmem
      cases hk : entries.lookup k with
      | none =>
          have hmissing : (tabledEntries entries fields).lookup k = none := by
            rw [lookup_tabledEntries, hk]
            rfl
          simp only [Option.bind_some, normField, hk, Option.map_none, Option.bind_none,
            Option.none_or, missingUnder, hmissing]
          cases p <;> rfl
      | some v =>
          have hthere : (tabledEntries entries fields).lookup k = some (tabled v t) := by
            rw [lookup_tabledEntries, hk]
            simp [tabledUnder, hf]
          have hnone : missingUnder (tabledEntries entries fields) k (p, t) = none := by
            simp [missingUnder, hthere]
          simp only [normField, hk] at hread
          obtain ⟨w, hw, _⟩ := Option.map_eq_some_iff.mp hread
          have hprune := ih (k, v) (Assoc.mem_of_lookup hk) p t w hmem hw
          have hkeep := keep_eq_nonEmpty (hvec _ hmem) hw
          simp only [Option.bind_some, normField, hk, hw, Option.map_some, Option.join_some, hkeep,
            hnone, Option.or_none, pruneUnder, tabledUnder, hf, ← hprune]

/-- A list in place of a struct has no more keys than the struct. -/
theorem keys_row (items : List Value) (fields : List (String × Presence × Ty)) :
    (keys (row items fields)).Sublist (fields.map Prod.fst) := by
  induction fields generalizing items with
  | nil => exact List.Sublist.slnil
  | cons f fields ih =>
      cases items with
      | nil => exact List.nil_sublist _
      | cons v items => exact (ih items).cons_cons f.1

/-- A scalar is read as it is, or not at all. -/
theorem norm_scalar {v w : Value} {t : Ty} (hv : v.isScalar) (h : norm t v = some w) : w = v := by
  cases t with
  | array t =>
      cases v with
      | array items => cases hv
      | _ => cases h
  | table fields =>
      cases v with
      | array items => cases hv
      | table entries => cases hv
      | _ => cases h
  | _ => exact (norm_scalarTy rfl h).1

/-- A map that cannot fail on a list is a map. -/
theorem mapM_eq_map {f : Value → Option Value} {g : Value → Value} {items l : List Value}
    (hfg : ∀ v ∈ items, ∀ w, f v = some w → w = g v) (h : items.mapM f = some l) :
    l = items.map g := by
  induction items generalizing l with
  | nil =>
      cases h
      rfl
  | cons v items ih =>
      obtain ⟨hv, hitems⟩ := List.forall_mem_cons.mp hfg
      rw [List.mapM_cons] at h
      obtain ⟨w, hw, h⟩ := Option.bind_eq_some_iff.mp h
      obtain ⟨l, hl, h⟩ := Option.bind_eq_some_iff.mp h
      cases h
      rw [List.map_cons, hv w hw, ih hitems hl]

/-- Reading a value as a type and writing it back is no more than pruning it. -/
theorem norm_eq_prune {v w : Value} {t : Ty} (ht : t.every listFields) (hv : DistinctKeys v)
    (h : norm t v = some w) : w = prune (tabled v t) t := by
  induction v using Value.members_induction generalizing t w with
  | string s | integer i | float bits | boolean b | datetime text =>
      rw [norm_scalar rfl h]
      cases t <;> rfl
  | array items ih =>
      cases t with
      | array t =>
          obtain ⟨l, hl, rfl⟩ := Option.map_eq_some_iff.mp h
          rw [tabled, prune, tabledItems_eq, pruneItems_eq, List.map_map]
          refine congrArg Value.array (mapM_eq_map ?_ hl)
          intro v hmem w hw
          obtain ⟨i, hi⟩ := List.getElem?_of_mem hmem
          exact ih v hmem ht (hv.item hi) hw
      | table fields =>
          simp only [Ty.every, Bool.and_eq_true] at ht
          have hd : (fields.map Prod.fst).Nodup := by
            simp only [listFields, Bool.and_eq_true] at ht
            exact of_decide_eq_true ht.1.1
          obtain ⟨l, hl, rfl⟩ := Option.map_eq_some_iff.mp h
          rw [normFields_row hd] at hl
          rw [tabled, tabledRow_eq hd]
          refine sortKeys_normFields ht.1 ((keys_row items fields).nodup hd) ?_ hl
          intro e he p t w hf hw
          have hmem : e.2 ∈ items := (List.of_mem_zip he).2
          obtain ⟨i, hi⟩ := List.getElem?_of_mem hmem
          exact ih e.2 hmem (every_of_mem ht.2 hf) (hv.item hi) hw
      | _ => cases h
  | table entries ih =>
      cases t with
      | table fields =>
          simp only [Ty.every, Bool.and_eq_true] at ht
          obtain ⟨l, hl, rfl⟩ := Option.map_eq_some_iff.mp h
          rw [tabled]
          refine sortKeys_normFields ht.1 (hv [] entries rfl) ?_ hl
          intro e he p t w hf hw
          exact ih e he (every_of_mem ht.2 hf) (hv.entry he) hw
      | _ => cases h

/-! ## what is at a path -/

/-- A struct is read from the entries of its table. -/
theorem norm_struct {fields : List (String × Presence × Ty)} {v w : Value}
    (hd : (fields.map Prod.fst).Nodup) (h : norm (.table fields) v = some w) :
    ∃ entries l, normFields fields (.byKey entries) = some l ∧ w = .table (sortKeys l) ∧
      tabled v (.table fields) = .table (tabledEntries entries fields) := by
  cases v with
  | table entries =>
      obtain ⟨l, hl, rfl⟩ := Option.map_eq_some_iff.mp h
      exact ⟨entries, l, hl, rfl, rfl⟩
  | array items =>
      obtain ⟨l, hl, rfl⟩ := Option.map_eq_some_iff.mp h
      rw [normFields_row hd] at hl
      exact ⟨row items fields, l, hl, rfl, by rw [tabled, tabledRow_eq hd]⟩
  | _ => cases h

/-- The elements of a list that is mapped. -/
theorem getElem?_mapM {f : Value → Option Value} {items l : List Value}
    (h : items.mapM f = some l) (i : Nat) : l[i]? = (items[i]?).bind f := by
  induction items generalizing l i with
  | nil =>
      cases h
      rfl
  | cons v items ih =>
      rw [List.mapM_cons] at h
      obtain ⟨w, hw, h⟩ := Option.bind_eq_some_iff.mp h
      obtain ⟨l, hl, h⟩ := Option.bind_eq_some_iff.mp h
      cases h
      cases i with
      | zero => exact hw.symm
      | succ i => exact ih hl i

/-- No field on the way along a path has a default. -/
def Plain (path : List Segment) (t : Ty) : Prop :=
  ∀ start k rest fields f, path = start ++ .field k :: rest →
    typeAt start t = some (.table fields) → fields.lookup k = some f → ∀ d, f.1 ≠ .default d

/-- The rest of a plain path is plain. -/
theorem Plain.tail {seg : Segment} {path : List Segment} {t t' : Ty} (h : Plain (seg :: path) t)
    (ht : ∀ start, typeAt (seg :: start) t = typeAt start t') : Plain path t' := by
  intro start k rest fields f hpath hat
  refine h (seg :: start) k rest fields f (by rw [hpath, List.cons_append]) ?_
  rw [ht]
  exact hat

/-- A scalar is no struct. -/
theorem tabled_scalarTy {t : Ty} (ht : isScalarTy t) (v : Value) : tabled v t = v := by
  cases t with
  | array t => cases ht
  | table fields => cases ht
  | _ => cases v <;> rfl

/-- There is nothing in an empty array. -/
theorem bind_nonEmpty {path : List Segment} {y : Value} (h : path = [] → y.isScalar) :
    (nonEmpty y).bind (walkSegments path) = walkSegments path y := by
  cases y with
  | array items =>
      cases items with
      | nil =>
          cases path with
          | nil => cases h rfl
          | cons seg path => cases seg <;> rfl
      | cons v items => rfl
  | _ => rfl

/-- Neither reading nor writing changes a scalar of the schema. -/
theorem walk_norm {path : List Segment} {t s : Ty} {v w : Value} (ht : t.every listFields)
    (hat : typeAt path t = some s) (hs : isScalarTy s) (hplain : Plain path t)
    (h : norm t v = some w) : walkSegments path w = walkSegments path (tabled v t) := by
  induction path generalizing t v w with
  | nil =>
      cases hat
      rw [tabled_scalarTy hs, (norm_scalarTy hs h).1]
  | cons seg path ih =>
      cases seg with
      | index i =>
          cases t with
          | array t =>
              cases v with
              | array items =>
                  obtain ⟨l, hl, rfl⟩ := Option.map_eq_some_iff.mp h
                  rw [tabled, tabledItems_eq]
                  simp only [walkSegments, getElem?_mapM hl, List.getElem?_map]
                  cases hx : items[i]? with
                  | none => rfl
                  | some x =>
                      have hsome : (items.mapM (norm t)).isSome := by rw [hl]; rfl
                      obtain ⟨y, hy⟩ := Option.isSome_iff_exists.mp
                        (mapM_isSome hsome x (List.mem_of_getElem? hx))
                      simp only [Option.bind_some, Option.map_some, hy]
                      exact ih ht hat (hplain.tail fun _ => rfl) hy
              | _ => cases h
          | _ => cases hat
      | field k =>
          cases t with
          | table fields =>
              obtain ⟨⟨p, t⟩, hf, hat⟩ := Option.bind_eq_some_iff.mp hat
              simp only [Ty.every, Bool.and_eq_true] at ht
              obtain ⟨hfields, hevery⟩ := ht
              simp only [listFields, Bool.and_eq_true, List.all_eq_true, beq_iff_eq] at hfields
              obtain ⟨hdistinct, hvec⟩ := hfields
              have hd : (fields.map Prod.fst).Nodup := of_decide_eq_true hdistinct
              have hmem := Assoc.mem_of_lookup hf
              obtain ⟨entries, l, hl, rfl, htabled⟩ := norm_struct hd h
              have hnodup := (keys_normFields hl).nodup hd
              rw [htabled]
              simp only [walkSegments, lookup_sortKeys hnodup, lookup_of_normFields hl hd, hf,
                lookup_tabledEntries, Option.bind_some]
              have hread := lookup_normFields hl hd hmem
              cases hk : entries.lookup k with
              | none =>
                  have hdefault := hplain [] k path fields (p, t) rfl rfl hf
                  simp only [normField, hk, Option.map_none, Option.bind_none]
                  cases p with
                  | default d => exact absurd rfl (hdefault d)
                  | _ => rfl
              | some x =>
                  simp only [normField, hk] at hread
                  obtain ⟨y, hy, _⟩ := Option.map_eq_some_iff.mp hread
                  have htail : Plain path t := hplain.tail fun start => by simp [typeAt, hf]
                  have hwalk := ih (every_of_mem hevery hmem) hat htail hy
                  have hkeep := keep_eq_nonEmpty (hvec _ hmem) hy
                  simp only [normField, hk, hy, Option.map_some, Option.join_some, hkeep,
                    Option.bind_some, tabledUnder, hf, ← hwalk]
                  refine bind_nonEmpty ?_
                  rintro rfl
                  cases hat
                  exact isScalar_norm hs hy
          | _ => cases hat

end Zebrafish.ConfigTool
