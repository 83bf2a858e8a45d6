import Zebrafish.ConfigTool.Commands
import Zebrafish.ConfigTool.Get

/-!
# Zebrafish.ConfigTool.RoundTrip

`set` and then `get` of a scalar of the schema.

`set` takes the type of a value from its text, `get` from the schema.
`Carries` says that a file is read exactly when the value that was set is read
as its type, and that `get` then finds it; it is carried from the value to its
struct, to a list of structs and to the whole file.  What is left is where the
two agree on the type of a text (`set_get_iff`).
-/

namespace Zebrafish.ConfigTool

open Toml Rust

/-! ## reading around a value -/

/-- A value that is read as `t` exactly when `w` is read as `s`, with what is
read of `w` at `q`. -/
structure Carries (t : Ty) (v : Value) (q : List Segment) (s : Ty) (w : Value) : Prop where
  unread : norm s w = none → norm t v = none
  read : ∀ y, norm s w = some y → ∃ u, norm t v = some u ∧ walkSegments q u = some y

/-- A value carries itself. -/
theorem Carries.self (s : Ty) (w : Value) : Carries s w [] s w where
  unread h := h
  read y h := ⟨y, h, rfl⟩

/-- Neither an array nor a struct. -/
def isScalarTy : Ty → Bool
  | .array _ => false
  | .table _ => false
  | _ => true

/-- Scalars are read as they are. -/
theorem norm_scalarTy {s : Ty} (hs : isScalarTy s) {w y : Value} (h : norm s w = some y) :
    y = w ∧ w.isScalar := by
  cases s with
  | array t => cases hs
  | table fields => cases hs
  | string =>
      cases w <;> cases h
      exact ⟨rfl, rfl⟩
  | boolean =>
      cases w <;> cases h
      exact ⟨rfl, rfl⟩
  | unsigned bits =>
      cases w with
      | integer i =>
          simp only [Toml.norm] at h
          split at h
          · cases h
            exact ⟨rfl, rfl⟩
          · cases h
      | _ => cases h

/-- What is read at a scalar type is a scalar. -/
theorem isScalar_norm {s : Ty} (hs : isScalarTy s) {w y : Value} (h : norm s w = some y) :
    y.isScalar := by
  obtain ⟨rfl, hw⟩ := norm_scalarTy hs h
  exact hw

/-- A struct whose other fields are read. -/
theorem Carries.field {fields : List (String × Presence × Ty)} (hd : distinctFields fields)
    {k : String} {p : Presence} {t : Ty} (hf : (k, p, t) ∈ fields) {entries : Entries} {x : Value}
    (hx : entries.lookup k = some x)
    (hothers : ∀ f ∈ fields, f.1 ≠ k → (normField entries f).isSome) {q : List Segment} {s : Ty}
    (hs : isScalarTy s) {w : Value} (h : Carries t x q s w) :
    Carries (.table fields) (.table entries) (.field k :: q) s w where
  unread hnone := by
    have hfield : normField entries (k, p, t) = none := by simp [normField, hx, h.unread hnone]
    cases hfields : normFields fields (.byKey entries) with
    | none => simp [Toml.norm, hfields]
    | some l =>
        have hsome := normFields_isSome_iff.mp (by rw [hfields]; rfl) _ hf
        rw [hfield] at hsome
        cases hsome
  read y hy := by
    obtain ⟨u, hu, hq⟩ := h.read y hy
    have hd := of_decide_eq_true hd
    -- a scalar can be read at `q`, so that `u` is not the empty list that is not written
    have hkeep : p.keep u = some u := by
      unfold Presence.keep
      split
      · have hscalar := isScalar_norm hs hy
        cases q with
        | nil =>
            cases hq
            cases hscalar
        | cons seg q => cases seg <;> cases hq
      · rfl
    have hfield : normField entries (k, p, t) = some (some u) := by
      simp [normField, hx, hu, hkeep]
    have hall : ∀ f ∈ fields, (normField entries f).isSome := by
      rintro ⟨c, g⟩ hmem
      by_cases hk : c = k
      · subst hk
        have hlookup := Assoc.lookup_of_mem hd hmem
        rw [Assoc.lookup_of_mem hd hf] at hlookup
        cases hlookup
        rw [hfield]
        rfl
      · exact hothers (c, g) hmem hk
    obtain ⟨l, hl⟩ := Option.isSome_iff_exists.mp (normFields_isSome_iff.mpr hall)
    have hlookup := lookup_normFields hl hd hf
    rw [hfield] at hlookup
    have hkeys : (keys l).Nodup := (keys_normFields hl).nodup hd
    refine ⟨.table (sortKeys l), by simp [Toml.norm, hl], ?_⟩
    rw [walkSegments, lookup_sortKeys hkeys, ← Option.some.inj hlookup]
    exact hq

/-- A list is read with one element replaced. -/
theorem mapM_set {f : Value → Option Value} {items l : List Value} (h : items.mapM f = some l)
    {i : Nat} (hi : i < items.length) (x : Value) :
    (items.set i x).mapM f = (f x).map (l.set i) := by
  induction items generalizing l i with
  | nil => cases hi
  | cons v items ih =>
      rw [List.mapM_cons] at h
      obtain ⟨a, ha, h⟩ := Option.bind_eq_some_iff.mp h
      obtain ⟨rest, hrest, h⟩ := Option.bind_eq_some_iff.mp h
      cases h
      cases i with
      | zero =>
          rw [List.set_cons_zero, List.mapM_cons, hrest]
          cases f x <;> rfl
      | succ i =>
          rw [List.set_cons_succ, List.mapM_cons, ha, ih hrest (Nat.lt_of_succ_lt_succ hi)]
          cases f x <;> rfl

/-- A list that is read has as many elements as before. -/
theorem length_mapM {f : Value → Option Value} {items l : List Value}
    (h : items.mapM f = some l) : l.length = items.length := by
  induction items generalizing l with
  | nil =>
      cases h
      rfl
  | cons v items ih =>
      rw [List.mapM_cons] at h
      obtain ⟨a, ha, h⟩ := Option.bind_eq_some_iff.mp h
      obtain ⟨rest, hrest, h⟩ := Option.bind_eq_some_iff.mp h
      cases h
      simp [ih hrest]

/-- A list whose other elements are read. -/
theorem Carries.index {t : Ty} {items : List Value}
    (hitems : (norm (.array t) (.array items)).isSome) {i : Nat} (hi : i < items.length)
    {x : Value} {q : List Segment} {s : Ty} {w : Value} (h : Carries t x q s w) :
    Carries (.array t) (.array (items.set i x)) (.index i :: q) s w := by
  obtain ⟨l, hl⟩ : ∃ l, items.mapM (norm t) = some l := by
    simpa [Toml.norm, Option.isSome_iff_exists] using hitems
  have hset := mapM_set hl hi x
  constructor
  · intro hnone
    rw [Toml.norm, hset, h.unread hnone]
    rfl
  · intro y hy
    obtain ⟨u, hu, hq⟩ := h.read y hy
    refine ⟨.array (l.set i u), by rw [Toml.norm, hset, hu]; rfl, ?_⟩
    rw [walkSegments, List.getElem?_set_self (by rwa [length_mapM hl])]
    exact hq

/-! ## the schema -/

/-- A type of a field of a flat struct: no struct, and no number that is larger
than an `i64`. -/
def isFlat : Ty → Bool
  | .table _ => false
  | .unsigned bits => bits ≤ 63
  | _ => true

/-- A struct without structs in it; its fields are distinct. -/
def flat (fields : List (String × Presence × Ty)) : Bool :=
  distinctFields fields && fields.all fun f => isFlat f.2.2

/-- The fields of a flat struct are flat. -/
theorem isFlat_of_mem {fields : List (String × Presence × Ty)} (h : flat fields) {k : String}
    {p : Presence} {t : Ty} (hmem : (k, p, t) ∈ fields) : isFlat t := by
  simp only [flat, Bool.and_eq_true] at h
  exact List.all_eq_true.mp h.2 _ hmem

/-- Any field alone makes the struct. -/
def standalone (fields : List (String × Presence × Ty)) : Bool :=
  fields.all fun f => fields.all fun g => g.1 = f.1 || g.2.1.absent.isSome

/-- A section is a struct that any field of it makes, or a list of structs. -/
def isSection : Ty → Bool
  | .table fields => flat fields && standalone fields
  | .array (.table fields) => flat fields
  | _ => false

theorem sectionTys_ok :
    distinctFields sectionTys ∧ sectionTys.all fun f => isSection f.2.2 := by
  decide +kernel

/-! ## where a value is set -/

/-- `set` does not index within a table. -/
theorem setInTable_index {t t' : Table} {i : Nat} {rest : List Segment} {v : Value} :
    setInTable t (.index i :: rest) v ≠ .ok t' := by
  intro h
  cases rest <;> cases h

/-- Nor below a field. -/
theorem setInTable_field_index {t t' : Table} {name : String} {i : Nat} {rest : List Segment}
    {v : Value} : setInTable t (.field name :: .index i :: rest) v ≠ .ok t' := by
  intro h
  rw [setInTable] at h
  split at h
  · obtain ⟨x, _, h⟩ := bind_ok_iff.mp h
    split at h
    · obtain ⟨next, _, h⟩ := bind_ok_iff.mp h
      obtain ⟨next', hnext, _⟩ := bind_ok_iff.mp h
      exact setInTable_index hnext
    · cases h
  · obtain ⟨next', hnext, _⟩ := bind_ok_iff.mp h
    exact setInTable_index hnext

/-- In a flat struct only its fields can be set. -/
theorem setInTable_flat {fields : List (String × Presence × Ty)} (hflat : flat fields)
    {segs : List Segment} {ty : Ty} (hty : typeAt segs (.table fields) = some ty)
    (hs : isScalarTy ty) {t t' : Table} {v : Value} (h : setInTable t segs v = .ok t') :
    ∃ k p, segs = [.field k] ∧ (k, p, ty) ∈ fields ∧ t' = t.insert k (.value v) := by
  cases segs with
  | nil =>
      cases hty
      cases hs
  | cons seg tail =>
      cases seg with
      | index i => cases hty
      | field k =>
          obtain ⟨⟨p, t₀⟩, hk, hty⟩ := Option.bind_eq_some_iff.mp hty
          have hmem := Assoc.mem_of_lookup hk
          cases tail with
          | nil =>
              cases hty
              cases h
              exact ⟨k, p, rfl, hmem, rfl⟩
          | cons seg tail =>
              cases seg with
              | index i => exact absurd h setInTable_field_index
              | field k' =>
                  cases t₀ with
                  | table fields' => cases isFlat_of_mem hflat hmem
                  | _ => cases hty

/-- What `set` has done to a section that is a table. -/
theorem setInSection_ok {doc doc' : Table} {sec : String} {rest : List Segment} {v : Value}
    (h : setInSection doc sec rest v = .ok doc') :
    ∃ t t' : Table, (doc.lookup sec = some (.table t) ∨ doc.lookup sec = none ∧ t = []) ∧
      setInTable t rest v = .ok t' ∧ doc' = doc.insert sec (.table t') := by
  rw [setInSection_eq] at h
  cases hx : doc.lookup sec with
  | none =>
      rw [hx] at h
      obtain ⟨t', ht', h⟩ := bind_ok_iff.mp h
      cases h
      exact ⟨[], t', Or.inr ⟨rfl, rfl⟩, ht', rfl⟩
  | some x =>
      rw [hx] at h
      cases x with
      | table t =>
          obtain ⟨t', ht', h⟩ := bind_ok_iff.mp h
          cases h
          exact ⟨t, t', Or.inl rfl, ht', rfl⟩
      | value v => cases h
      | arrayOfTables ts => cases h

/-- What `set` has done to a section that is an array of tables. -/
theorem setInElement_ok {doc doc' : Table} {sec : String} {i : Nat} {rest : List Segment}
    {v : Value} (h : setInElement doc sec i rest v = .ok doc') :
    ∃ (ts : List Table) (t t' : Table), doc.lookup sec = some (.arrayOfTables ts) ∧
      ts[i]? = some t ∧ setInTable t rest v = .ok t' ∧
      doc' = doc.insert sec (.arrayOfTables (ts.set i t')) := by
  rw [setInElement_eq] at h
  cases hx : doc.lookup sec with
  | none =>
      rw [hx] at h
      cases h
  | some x =>
      rw [hx] at h
      cases x with
      | value v => cases h
      | table t => cases h
      | arrayOfTables ts =>
          simp only at h
          cases hi : ts[i]? with
          | none =>
              rw [hi] at h
              cases h
          | some t =>
              rw [hi] at h
              obtain ⟨t', ht', h⟩ := bind_ok_iff.mp h
              cases h
              exact ⟨ts, t, t', rfl, hi, ht', rfl⟩

/-! ## what is read after a value was set -/

/-- A field reads the entry under its key only. -/
theorem normField_congr {entries entries' : Entries} {f : String × Presence × Ty}
    (h : entries'.lookup f.1 = entries.lookup f.1) :
    normField entries' f = normField entries f := by
  rw [normField, normField, h]

/-- A struct is read if each of its fields is. -/
theorem normField_isSome {fields : List (String × Presence × Ty)} {entries : Entries}
    (h : (norm (.table fields) (.table entries)).isSome) :
    ∀ f ∈ fields, (normField entries f).isSome := by
  rw [Toml.norm, Option.isSome_map] at h
  exact normFields_isSome_iff.mp h

/-- An entry of a table of a document was replaced, and the others are read. -/
theorem Carries.insert {fields : List (String × Presence × Ty)} (hd : distinctFields fields)
    {k : String} {p : Presence} {t : Ty} (hf : (k, p, t) ∈ fields) {doc : Table} {x : Item}
    (hothers : ∀ f ∈ fields, f.1 ≠ k → (normField (entriesToValue doc) f).isSome)
    {q : List Segment} {s : Ty} (hs : isScalarTy s) {w : Value} (h : Carries t x.toValue q s w) :
    Carries (.table fields) (tree (doc.insert k x)) (.field k :: q) s w := by
  refine Carries.field hd hf ?_ ?_ hs h
  · rw [lookup_entriesToValue, Table.lookup_insert_self]
    rfl
  · intro f hmem hk
    have hsame : (entriesToValue (doc.insert k x)).lookup f.1 =
        (entriesToValue doc).lookup f.1 := by
      rw [lookup_entriesToValue, lookup_entriesToValue, Table.lookup_insert_of_ne doc x hk]
    rw [normField_congr hsame]
    exact hothers f hmem hk

/-- A list is read if each of its elements is. -/
theorem mapM_isSome {f : Value → Option Value} {items : List Value}
    (h : (items.mapM f).isSome) : ∀ x ∈ items, (f x).isSome := by
  induction items with
  | nil => simp
  | cons v items ih =>
      obtain ⟨l, hl⟩ := Option.isSome_iff_exists.mp h
      rw [List.mapM_cons] at hl
      obtain ⟨a, ha, hl⟩ := Option.bind_eq_some_iff.mp hl
      obtain ⟨rest, hrest, _⟩ := Option.bind_eq_some_iff.mp hl
      rw [List.forall_mem_cons]
      exact ⟨by rw [ha]; rfl, ih (by rw [hrest]; rfl)⟩

/-- What is under the key of a section is read as its type. -/
theorem norm_section {doc : Table} {sec : String} {p : Presence} {t : Ty}
    (h : (normField (entriesToValue doc) (sec, p, t)).isSome) {x : Item}
    (hx : doc.lookup sec = some x) : (norm t x.toValue).isSome := by
  rw [normField, lookup_entriesToValue, hx] at h
  simpa using h

/-- A field of a section that is a struct. -/
theorem setInSection_carries {doc doc' : Table} {sec : String} {p : Presence}
    {fields : List (String × Presence × Ty)} (hmem : (sec, p, .table fields) ∈ sectionTys)
    (hflat : flat fields) (halone : standalone fields)
    (hread : ∀ f ∈ sectionTys, (normField (entriesToValue doc) f).isSome) {rest : List Segment}
    {ty : Ty} (hty : typeAt rest (.table fields) = some ty) (hs : isScalarTy ty) {v : Value}
    (h : setInSection doc sec rest v = .ok doc') :
    isFlat ty ∧ Carries (.table sectionTys) (tree doc') (.field sec :: rest) ty v := by
  obtain ⟨t, t', hx, ht', rfl⟩ := setInSection_ok h
  obtain ⟨k, p', rfl, hk, rfl⟩ := setInTable_flat hflat hty hs ht'
  refine ⟨isFlat_of_mem hflat hk, ?_⟩
  simp only [flat, Bool.and_eq_true] at hflat
  have hothers : ∀ f ∈ fields, f.1 ≠ k → (normField (entriesToValue t) f).isSome := by
    intro f hf hne
    rcases hx with hx | ⟨_, rfl⟩
    · exact normField_isSome (norm_section (hread _ hmem) hx) f hf
    · have hg := List.all_eq_true.mp (List.all_eq_true.mp halone _ hk) f hf
      have hempty : normField (entriesToValue []) f = f.2.1.absent := rfl
      rw [hempty]
      simpa [hne] using hg
  have hstruct := Carries.insert hflat.1 hk hothers hs (x := .value v) (Carries.self ty v)
  exact Carries.insert sectionTys_ok.1 hmem (fun f hf _ => hread f hf) hs (x := .table _) hstruct

/-- A field of a struct of a list. -/
theorem setInElement_carries {doc doc' : Table} {sec : String} {p : Presence}
    {fields : List (String × Presence × Ty)} (hmem : (sec, p, .array (.table fields)) ∈ sectionTys)
    (hflat : flat fields) (hread : ∀ f ∈ sectionTys, (normField (entriesToValue doc) f).isSome)
    {i : Nat} {rest : List Segment} {ty : Ty} (hty : typeAt rest (.table fields) = some ty)
    (hs : isScalarTy ty) {v : Value} (h : setInElement doc sec i rest v = .ok doc') :
    isFlat ty ∧ Carries (.table sectionTys) (tree doc') (.field sec :: .index i :: rest) ty v := by
  obtain ⟨ts, t, t', hx, hi, ht', rfl⟩ := setInElement_ok h
  obtain ⟨k, p', rfl, hk, rfl⟩ := setInTable_flat hflat hty hs ht'
  refine ⟨isFlat_of_mem hflat hk, ?_⟩
  simp only [flat, Bool.and_eq_true] at hflat
  have hlist := norm_section (hread _ hmem) hx
  rw [Item.toValue, tablesToValue_eq] at hlist
  have helement : (norm (.table fields) (tree t)).isSome := by
    have hall := hlist
    rw [Toml.norm, Option.isSome_map] at hall
    exact mapM_isSome hall _ (List.mem_map_of_mem (List.mem_of_getElem? hi))
  have hstruct := Carries.insert hflat.1 hk (fun f hf _ => normField_isSome helement f hf) hs
    (x := .value v) (Carries.self ty v)
  have hlt : i < (ts.map tree).length := by
    rw [List.length_map]
    exact (List.getElem?_eq_some_iff.mp hi).1
  have hset := Carries.index hlist hlt hstruct
  rw [← List.map_set, ← tablesToValue_eq, ← Item.toValue] at hset
  exact Carries.insert sectionTys_ok.1 hmem (fun f hf _ => hread f hf) hs hset

/-- What was set is carried to the path in the configuration. -/
theorem applySet_carries {doc doc' : Table} (hcfg : (norm Config.ty (tree doc)).isSome)
    {segs : List Segment} {ty : Ty} (hty : typeAt segs Config.ty = some ty) (hs : isScalarTy ty)
    {raw : String} (h : applySet doc segs raw = .ok doc') :
    isFlat ty ∧ Carries Config.ty (tree doc') segs ty (parseValue raw) := by
  obtain ⟨hd, hsections⟩ := sectionTys_ok
  rw [Config.ty_eq] at hty hcfg ⊢
  have hothers := normField_isSome hcfg
  cases segs with
  | nil => cases h
  | cons seg tail =>
      cases seg with
      | index i => cases h
      | field sec =>
          obtain ⟨⟨p, t⟩, hsec, hty⟩ := Option.bind_eq_some_iff.mp hty
          have hmem := Assoc.mem_of_lookup hsec
          have hsection := List.all_eq_true.mp hsections _ hmem
          cases t with
          | table fields =>
              simp only [isSection, Bool.and_eq_true] at hsection
              cases tail with
              | nil => exact setInSection_carries hmem hsection.1 hsection.2 hothers hty hs h
              | cons seg tail =>
                  cases seg with
                  | index i => cases hty
                  | field k =>
                      exact setInSection_carries hmem hsection.1 hsection.2 hothers hty hs h
          | array t =>
              cases t with
              | table fields =>
                  cases tail with
                  | nil =>
                      cases hty
                      cases hs
                  | cons seg tail =>
                      cases seg with
                      | field k => cases hty
                      | index i => exact setInElement_carries hmem hsection hothers hty hs h
              | _ => cases hsection
          | _ => cases hsection

/-! ## the type of a text -/

/-- The texts that are legal for a scalar type: any at all for a string, the
canonical decimals in range for a number, `true` and `false`. -/
def Legal : Ty → String → Prop
  | .string, _ => True
  | .boolean, raw => raw = "true" ∨ raw = "false"
  | .unsigned bits, raw => ∃ n < 2 ^ bits, raw = toString n
  | _, _ => False

/-- A text is legal for a scalar only. -/
theorem isScalarTy_of_legal {ty : Ty} {raw : String} (h : Legal ty raw) : isScalarTy ty := by
  cases ty with
  | array t => cases h
  | table fields => cases h
  | _ => rfl

/-- A text that `set` takes for nothing else. -/
def IsText (raw : String) : Prop :=
  parseBool raw = none ∧ parseI64 raw = none ∧ parseF64 raw = none

/-- A text that looks like nothing else is a string. -/
theorem parseValue_of_isText {raw : String} (h : IsText raw) : parseValue raw = .string raw := by
  obtain ⟨hbool, hint, hfloat⟩ := h
  simp [parseValue, hbool, hint, hfloat]

/-- A text that looks like something else is not read as a string. -/
theorem norm_string_parseValue {raw : String} (h : ¬ IsText raw) :
    norm .string (parseValue raw) = none := by
  unfold parseValue
  split
  · rfl
  · next hbool =>
      split
      · rfl
      · next hint =>
          split
          · rfl
          · next hfloat => exact absurd ⟨hbool, hint, hfloat⟩ h

/-- A number is taken as one. -/
theorem parseValue_repr {n : Nat} (h : n < 2 ^ 63) : parseValue n.repr = .integer n := by
  simp [parseValue, parseBool_repr, parseI64_repr h]

/-- What the schema makes of a text that `set` took for something. -/
theorem norm_parseValue {ty : Ty} {raw : String} (hflat : isFlat ty) (h : Legal ty raw)
    (htext : ty = .string → IsText raw) (D : Display) :
    ∃ y, norm ty (parseValue raw) = some y ∧ printed D y = raw := by
  cases ty with
  | string => exact ⟨.string raw, by rw [parseValue_of_isText (htext rfl)]; rfl, rfl⟩
  | boolean =>
      rcases h with rfl | rfl
      · exact ⟨.boolean true, rfl, rfl⟩
      · exact ⟨.boolean false, rfl, rfl⟩
  | unsigned bits =>
      obtain ⟨n, hn, rfl⟩ := h
      have hbits : bits ≤ 63 := of_decide_eq_true hflat
      have hlt : n < 2 ^ 63 := hn.trans_le (Nat.pow_le_pow_right (by decide) hbits)
      have hrange : 0 ≤ (n : Int) ∧ (n : Int) < 2 ^ bits := by
        refine ⟨Int.natCast_nonneg n, ?_⟩
        exact_mod_cast hn
      refine ⟨.integer n, ?_, rfl⟩
      rw [show toString n = n.repr from rfl, parseValue_repr hlt, Toml.norm, if_pos hrange]
  | array t => cases h
  | table fields => cases h

/-! ## set and get -/

/-- The command line of a plain `get`. -/
def plainGet (key : String) : GetArgs := ⟨key, none, false⟩

/-- A value that was set is read back as its text, unless the field is a string
and the text looks like something else. -/
theorem set_get_iff (D : Display) {doc doc' : Table} (hdoc : doc.Good fun _ => True)
    (hcfg : (Config.fromToml (tree doc)).isSome) {key raw : String} {path : KeyPath}
    (hparse : KeyPath.parse key = some path) {ty : Ty}
    (hty : typeAt path.segments Config.ty = some ty) (hlegal : Legal ty raw) {file : Bool}
    (hset : Command.apply file doc (.set key raw) = .ok doc') :
    ((Config.fromToml (tree (reloadEntries doc'))).isSome ∧
      get D (tree (reloadEntries doc')) (plainGet key) = .ok ⟨raw, 0⟩) ↔
    (ty = .string → IsText raw) := by
  obtain ⟨path', hpath', happly⟩ := bind_ok_iff.mp hset
  have hsame : path' = path := Option.some.inj ((writablePath_ok hpath').symm.trans hparse)
  subst hsame
  have hgood : doc'.Good fun _ => True := by
    have hsafe := applySet_safe hdoc path'.segments raw trivial
    rw [happly] at hsafe
    exact hsafe.1
  have hread : (norm Config.ty (tree doc)).isSome := by
    rw [← Config.view_fromToml, Option.isSome_map]
    exact hcfg
  obtain ⟨hflat, hcarries⟩ := applySet_carries hread hty (isScalarTy_of_legal hlegal) happly
  have hview := Config.view_fromToml (tree doc')
  rw [hgood.reload_eq]
  constructor
  · rintro ⟨hsome, _⟩ rfl
    by_contra htext
    rw [hcarries.unread (norm_string_parseValue htext)] at hview
    rw [Option.map_eq_none_iff.mp hview] at hsome
    cases hsome
  · intro htext
    obtain ⟨y, hy, hprinted⟩ := norm_parseValue hflat hlegal htext D
    obtain ⟨u, hu, hwalk⟩ := hcarries.read y hy
    rw [hu] at hview
    obtain ⟨cfg, hcfg', rfl⟩ := Option.map_eq_some_iff.mp hview
    refine ⟨by rw [hcfg']; rfl, ?_⟩
    simp only [get, plainGet, hparse, hcfg', getKey, KeyPath.lookup, hwalk, hprinted,
      Bool.false_eq_true, if_false]

/-- A file with one registry. -/
def registryDoc (password : Value) : Table :=
  [("docker-registry", .arrayOfTables [[("hostname", .value (.string "ghcr.io")),
    ("username", .value (.string "ci")), ("password", .value password)]])]

theorem good_registryDoc (password : Value) : (registryDoc password).Good fun _ => True := by
  simp [Table.Good, registryDoc, Item.Good, GoodEntries, GoodTables]

def registryPath : KeyPath :=
  ⟨[.field "docker-registry", .index 0, .field "password"], by simp⟩

theorem parse_registryPath : KeyPath.parse "docker-registry[0].password" = some registryPath := by
  decide +kernel

theorem apply_registryDoc (password : Value) (raw : String) :
    Command.apply true (registryDoc password) (.set "docker-registry[0].password" raw) =
      .ok (registryDoc (parseValue raw)) := by
  rw [Command.apply, writablePath, parse_registryPath]
  rfl

theorem set_get_registry :
    ∃ doc', Command.apply true (registryDoc (.string "secret"))
        (.set "docker-registry[0].password" "hunter2") = .ok doc' ∧
      (Config.fromToml (tree (reloadEntries doc'))).isSome ∧
      get ⟨fun _ => "", fun _ => ""⟩ (tree (reloadEntries doc'))
        (plainGet "docker-registry[0].password") = .ok ⟨"hunter2", 0⟩ := by
  have hcfg : (Config.fromToml (tree (registryDoc (.string "secret")))).isSome := by
    decide +kernel
  have hset := apply_registryDoc (.string "secret") "hunter2"
  have htext : IsText "hunter2" :=
    ⟨by decide +kernel, by decide +kernel, by decide +kernel⟩
  refine ⟨_, hset, ?_⟩
  exact (set_get_iff _ (good_registryDoc _) hcfg parse_registryPath rfl trivial hset).mpr
    fun _ => htext

/-- A password of digits is written as a number, and the file cannot be read any
more. -/
theorem numeric_password_unreadable :
    (registryDoc (.string "secret")).Good (fun _ => True) ∧
      (Config.fromToml (tree (registryDoc (.string "secret")))).isSome ∧
      KeyPath.parse "docker-registry[0].password" = some registryPath ∧
      typeAt registryPath.segments Config.ty = some .string ∧ Legal .string "20240115" ∧
      ∃ doc', Command.apply true (registryDoc (.string "secret"))
          (.set "docker-registry[0].password" "20240115") = .ok doc' ∧
        Config.fromToml (tree (reloadEntries doc')) = none := by
  refine ⟨good_registryDoc _, by decide +kernel, parse_registryPath, rfl, trivial, _,
    apply_registryDoc _ _, ?_⟩
  have hnone : (Config.fromToml (tree (reloadEntries
      (registryDoc (parseValue "20240115"))))).isNone := by decide +kernel
  exact Option.isNone_iff_eq_none.mp hnone

end Zebrafish.ConfigTool
