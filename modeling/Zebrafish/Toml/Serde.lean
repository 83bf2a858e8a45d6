import Zebrafish.Toml.Value

/-!
# Toml.Serde

Structs as TOML tables, the way serde derives it.

`Ty` describes a type: its fields in order, each with what happens when it is
absent.  `norm` reads a value as a type and writes it back; whatever a derived
struct does with TOML, reading and writing together do that.  A `Codec` is a
reader and a writer with both facts attached: composed, they are `norm`
(`norm_eq`), and what is written has the shape of its type (`shaped`).
Codecs are assembled field by field, so a struct's codec is its declaration.
-/

namespace Toml

/-! ## types -/

/-- What serde makes of an absent field: an error, `None`, an empty `Vec` (these
two are not written either), or a default. -/
inductive Presence
  | required
  | optional
  | vec
  | default (v : Value)

inductive Ty
  | string
  | boolean
  | unsigned (bits : Nat)
  | array (elem : Ty)
  | table (fields : List (String × Presence × Ty))

/-- The fields of a struct, as they come: under their keys, or, from an array,
in the order of their declaration. -/
inductive Source
  | byKey (entries : Entries)
  | inOrder (items : List Value)

/-- The next field, and where the ones after it come from. -/
def Source.next : Source → String → Option Value × Source
  | .byKey entries, k => (entries.lookup k, .byKey entries)
  | .inOrder [], _ => (none, .inOrder [])
  | .inOrder (v :: items), _ => (some v, .inOrder items)

/-- A struct can be read from a table and from an array. -/
def Value.source : Value → Option Source
  | .table entries => some (.byKey entries)
  | .array items => some (.inOrder items)
  | _ => none

/-- What is written for a field that is absent, if that is no error. -/
def Presence.absent : Presence → Option (Option Value)
  | .required => none
  | .optional => some none
  | .vec => some none
  | .default v => some (some v)

/-- What is written for a field that is there. -/
def Presence.keep : Presence → Value → Option Value
  | .vec, .array [] => none
  | _, v => some v

/-- An entry, if there is a value for it. -/
def entry (k : String) : Option Value → Entries
  | some v => [(k, v)]
  | none => []

/-- The first entry is found under its key. -/
theorem lookup_entry_append (k : String) (v : Option Value) {l : Entries}
    (hl : l.lookup k = none) : (entry k v ++ l).lookup k = v := by
  cases v <;> simp [entry, hl]

/-- Under other keys, what follows is found. -/
theorem lookup_entry_append_of_ne {k k' : String} (hne : k' ≠ k) (v : Option Value) (l : Entries) :
    (entry k v ++ l).lookup k' = l.lookup k' := by
  have hkey : (k' == k) = false := by simpa using hne
  cases v <;> simp [entry, List.lookup_cons, hkey]

/-- The keys are among those of the fields, in their order. -/
theorem keys_entry_append (k : String) (v : Option Value) {l : Entries} {ks : List String}
    (h : (keys l).Sublist ks) : (keys (entry k v ++ l)).Sublist (k :: ks) := by
  cases v with
  | none => exact h.cons k
  | some v => exact h.cons_cons k

section

variable {β : Type} (g : String → β → Option Value) {l : List (String × β)}

/-- Entries that may be left out have keys of the list, in its order. -/
theorem keys_flatMap_entry (l : List (String × β)) :
    (keys (l.flatMap fun e => entry e.1 (g e.1 e.2))).Sublist (l.map Prod.fst) := by
  induction l with
  | nil => exact List.Sublist.slnil
  | cons e l ih =>
      rw [List.flatMap_cons, List.map_cons]
      exact keys_entry_append e.1 _ ih

/-- What is made of the entries of a list is found under their keys. -/
theorem lookup_flatMap_entry (hl : (l.map Prod.fst).Nodup) (k : String) :
    (l.flatMap fun e => entry e.1 (g e.1 e.2)).lookup k = (l.lookup k).bind (g k) := by
  induction l with
  | nil => rfl
  | cons e l ih =>
      obtain ⟨k', b⟩ := e
      have hnot : k' ∉ l.map Prod.fst := (List.nodup_cons.mp hl).1
      have hrest := ih (List.nodup_cons.mp hl).2
      rw [List.flatMap_cons, List.lookup_cons]
      by_cases hk : k = k'
      · subst hk
        rw [Assoc.lookup_eq_none_iff.mpr hnot] at hrest
        rw [lookup_entry_append k (g k b) hrest, beq_self_eq_true]
        rfl
      · have hbeq : (k == k') = false := by simpa using hk
        rw [lookup_entry_append_of_ne hk, hrest, hbeq]

end

mutual

/-- Read a value as a type and write it back. -/
def norm : Ty → Value → Option Value
  | .string, .string s => some (.string s)
  | .boolean, .boolean b => some (.boolean b)
  | .unsigned bits, .integer i =>
      if 0 ≤ i ∧ i < 2 ^ bits then some (.integer i) else none
  | .array t, .array items => (items.mapM (norm t)).map .array
  | .table fields, .table entries =>
      (normFields fields (.byKey entries)).map fun l => .table (sortKeys l)
  | .table fields, .array items =>
      (normFields fields (.inOrder items)).map fun l => .table (sortKeys l)
  | _, _ => none

def normFields : List (String × Presence × Ty) → Source → Option Entries
  | [], _ => some []
  | (k, p, t) :: fields, s =>
      match s.next k with
      | (some v, s) => do
          let v ← norm t v
          let rest ← normFields fields s
          pure (entry k (p.keep v) ++ rest)
      | (none, s) => do
          let v ← p.absent
          let rest ← normFields fields s
          pure (entry k v ++ rest)

end

mutual

/-- A value as it is written for a type. -/
def Shaped : Ty → Value → Prop
  | .string, v => ∃ s, v = .string s
  | .boolean, v => ∃ b, v = .boolean b
  | .unsigned bits, v => ∃ n : Nat, v = .integer n ∧ n < 2 ^ bits
  | .array t, v => ∃ items, v = .array items ∧ ∀ x ∈ items, Shaped t x
  | .table fields, v => ∃ l, v = .table (sortKeys l) ∧ ShapedFields fields l

/-- Some of the fields, in order. -/
def ShapedFields : List (String × Presence × Ty) → Entries → Prop
  | [], l => l = []
  | (k, _, t) :: fields, l =>
      (∃ v rest, l = (k, v) :: rest ∧ Shaped t v ∧ ShapedFields fields rest) ∨
        ShapedFields fields l

end

/-- The entries of a written table are fields of its type. -/
theorem ShapedFields.mem {fields : List (String × Presence × Ty)} {l : Entries}
    (h : ShapedFields fields l) {k : String} {v : Value} (hmem : (k, v) ∈ l) :
    ∃ p t, (k, p, t) ∈ fields ∧ Shaped t v := by
  induction fields generalizing l with
  | nil =>
      simp only [ShapedFields] at h
      subst h
      cases hmem
  | cons f fields ih =>
      obtain ⟨k', p', t'⟩ := f
      rw [ShapedFields] at h
      rcases h with ⟨v', rest, rfl, hv, hrest⟩ | hrest
      · cases hmem with
        | head => exact ⟨p', t', List.mem_cons_self, hv⟩
        | tail _ hmem =>
            obtain ⟨p, t, hf, hs⟩ := ih hrest hmem
            exact ⟨p, t, List.mem_cons_of_mem _ hf, hs⟩
      · obtain ⟨p, t, hf, hs⟩ := ih hrest hmem
        exact ⟨p, t, List.mem_cons_of_mem _ hf, hs⟩

/-- They come in the order of the fields. -/
theorem ShapedFields.keys_sublist {fields : List (String × Presence × Ty)} {l : Entries}
    (h : ShapedFields fields l) : (keys l).Sublist (fields.map Prod.fst) := by
  induction fields generalizing l with
  | nil =>
      simp only [ShapedFields] at h
      subst h
      exact List.Sublist.slnil
  | cons f fields ih =>
      obtain ⟨k, p, t⟩ := f
      rw [ShapedFields] at h
      rcases h with ⟨v, rest, rfl, _, hrest⟩ | hrest
      · exact (ih hrest).cons_cons k
      · exact (ih hrest).cons k

/-! ### properties of every struct in a type -/

mutual

/-- Every struct in a type has fields of some kind. -/
def Ty.every (good : List (String × Presence × Ty) → Bool) : Ty → Bool
  | .array t => t.every good
  | .table fields => good fields && everyField good fields
  | _ => true

def everyField (good : List (String × Presence × Ty) → Bool) :
    List (String × Presence × Ty) → Bool
  | [] => true
  | (_, _, t) :: fields => t.every good && everyField good fields

end

/-- A property of all structs of a type is one of its fields. -/
theorem every_of_mem {good : List (String × Presence × Ty) → Bool}
    {fields : List (String × Presence × Ty)} (h : everyField good fields) {k : String}
    {p : Presence} {t : Ty} (hmem : (k, p, t) ∈ fields) : t.every good := by
  induction fields with
  | nil => cases hmem
  | cons f fields ih =>
      simp only [everyField, Bool.and_eq_true] at h
      cases hmem with
      | head => exact h.1
      | tail _ hmem => exact ih h.2 hmem

/-- A struct is read from its source, field by field. -/
theorem norm_table (fields : List (String × Presence × Ty)) (v : Value) :
    norm (.table fields) v =
      v.source.bind fun s => (normFields fields s).map fun l => .table (sortKeys l) := by
  cases v <;> simp [norm, Value.source]

/-! ### the fields of a table, one by one -/

/-- What is written of one field of a table, unless that is an error. -/
def normField (entries : Entries) (f : String × Presence × Ty) : Option (Option Value) :=
  match entries.lookup f.1 with
  | some v => (norm f.2.2 v).map f.2.1.keep
  | none => f.2.1.absent

/-- One field, and then the others. -/
theorem normFields_cons (f : String × Presence × Ty) (fields : List (String × Presence × Ty))
    (entries : Entries) :
    normFields (f :: fields) (.byKey entries) =
      (normField entries f).bind fun v =>
        (normFields fields (.byKey entries)).map fun rest => entry f.1 v ++ rest := by
  obtain ⟨k, p, t⟩ := f
  simp only [normFields, Source.next, normField]
  cases entries.lookup k with
  | none =>
      simp only
      cases p.absent with
      | none => rfl
      | some v => cases normFields fields (.byKey entries) <;> simp
  | some v =>
      cases hv : norm t v with
      | none => simp [hv]
      | some w => cases hrest : normFields fields (.byKey entries) <;> simp [hv, hrest]

/-- A struct is read when each field is. -/
theorem normFields_isSome_iff {fields : List (String × Presence × Ty)} {entries : Entries} :
    (normFields fields (.byKey entries)).isSome ↔ ∀ f ∈ fields, (normField entries f).isSome := by
  induction fields with
  | nil => simp [normFields]
  | cons f fields ih =>
      rw [normFields_cons, List.forall_mem_cons, ← ih]
      cases normField entries f <;> simp

/-- What is read has keys of the fields, in their order. -/
theorem keys_normFields {fields : List (String × Presence × Ty)} {entries l : Entries}
    (h : normFields fields (.byKey entries) = some l) :
    (keys l).Sublist (fields.map Prod.fst) := by
  induction fields generalizing l with
  | nil =>
      simp only [normFields, Option.some.injEq] at h
      subst h
      exact List.Sublist.slnil
  | cons f fields ih =>
      rw [normFields_cons] at h
      obtain ⟨v, hv, h⟩ := Option.bind_eq_some_iff.mp h
      obtain ⟨rest, hrest, rfl⟩ := Option.map_eq_some_iff.mp h
      exact keys_entry_append f.1 v (ih hrest)

/-- What is under the key of a field is what was written of it. -/
theorem lookup_normFields {fields : List (String × Presence × Ty)} {entries l : Entries}
    (h : normFields fields (.byKey entries) = some l) (hd : (fields.map Prod.fst).Nodup)
    {f : String × Presence × Ty} (hf : f ∈ fields) :
    normField entries f = some (l.lookup f.1) := by
  induction fields generalizing l with
  | nil => cases hf
  | cons g fields ih =>
      rw [normFields_cons] at h
      obtain ⟨v, hv, h⟩ := Option.bind_eq_some_iff.mp h
      obtain ⟨rest, hrest, rfl⟩ := Option.map_eq_some_iff.mp h
      obtain ⟨hg, hd⟩ := List.nodup_cons.mp hd
      rcases List.mem_cons.mp hf with rfl | hf
      · have habsent : rest.lookup f.1 = none :=
          Assoc.lookup_eq_none_iff.mpr fun hmem => hg ((keys_normFields hrest).subset hmem)
        rw [hv, lookup_entry_append f.1 v habsent]
      · have hne : f.1 ≠ g.1 := fun heq => hg (heq ▸ List.mem_map_of_mem hf)
        rw [ih hrest hd hf, lookup_entry_append_of_ne hne]

/-- Under a key is what was written of the field of that name, if there is
one. -/
theorem lookup_of_normFields {fields : List (String × Presence × Ty)} {entries l : Entries}
    (h : normFields fields (.byKey entries) = some l) (hd : (fields.map Prod.fst).Nodup)
    (k : String) :
    l.lookup k = (fields.lookup k).bind fun f => (normField entries (k, f)).join := by
  cases hf : fields.lookup k with
  | none =>
      rw [Option.bind_none, Assoc.lookup_eq_none_iff]
      intro hmem
      exact Assoc.lookup_eq_none_iff.mp hf ((keys_normFields h).subset hmem)
  | some f =>
      have hfield := lookup_normFields h hd (Assoc.mem_of_lookup hf)
      rw [Option.bind_some, hfield]
      rfl

/-! ### structs as arrays -/

/-- The items of a struct, under the keys of its fields. -/
def row (items : List Value) (fields : List (String × Presence × Ty)) : Entries :=
  (fields.map Prod.fst).zip items

/-- What is read depends on what is found under the keys. -/
theorem normFields_congr {fields : List (String × Presence × Ty)} {a b : Entries}
    (h : ∀ f ∈ fields, a.lookup f.1 = b.lookup f.1) :
    normFields fields (.byKey a) = normFields fields (.byKey b) := by
  induction fields with
  | nil => simp [normFields]
  | cons f fields ih =>
      obtain ⟨hf, hrest⟩ := List.forall_mem_cons.mp h
      rw [normFields_cons, normFields_cons, ih hrest, normField, hf, normField]

/-- A struct is read from an array as from the table of its fields. -/
theorem normFields_row {fields : List (String × Presence × Ty)}
    (hd : (fields.map Prod.fst).Nodup) (items : List Value) :
    normFields fields (.inOrder items) = normFields fields (.byKey (row items fields)) := by
  induction fields generalizing items with
  | nil => simp [normFields]
  | cons f fields ih =>
      obtain ⟨k, p, t⟩ := f
      have hk : k ∉ fields.map Prod.fst := (List.nodup_cons.mp hd).1
      have hd : (fields.map Prod.fst).Nodup := (List.nodup_cons.mp hd).2
      cases items with
      | nil =>
          have hrest := ih hd []
          rw [row, List.zip_nil_right] at hrest ⊢
          simp only [normFields, Source.next, List.lookup_nil, hrest]
      | cons v items =>
          have hrow : row (v :: items) ((k, p, t) :: fields) = (k, v) :: row items fields := rfl
          have hrest : normFields fields (.byKey ((k, v) :: row items fields)) =
              normFields fields (.inOrder items) := by
            rw [ih hd items]
            refine normFields_congr fun f hf => ?_
            have hne : (f.1 == k) = false := by
              rw [beq_eq_false_iff_ne]
              rintro rfl
              exact hk (List.mem_map_of_mem hf)
            rw [List.lookup_cons, hne]
          rw [hrow]
          simp only [normFields, Source.next, List.lookup_cons_self, hrest]

/-! ## codecs -/

/-- A reader and a writer for a type. -/
structure Codec (α : Type) where
  ty : Ty
  ser : α → Value
  de : Value → Option α
  norm_eq : ∀ v, (de v).map ser = norm ty v
  shaped : ∀ a, Shaped ty (ser a)

/-- A reader and a writer for fields. -/
structure Fields (α : Type) where
  tys : List (String × Presence × Ty)
  ser : α → Entries
  de : Source → Option α
  norm_eq : ∀ s, (de s).map ser = normFields tys s
  shaped : ∀ a, ShapedFields tys (ser a)

/-- Read the next field, or take `absent` for it. -/
def Source.field {β : Type} (s : Source) (k : String) (de : Value → Option β)
    (absent : Option β) : Option (β × Source) :=
  match s.next k with
  | (some v, s) => (de v).map fun b => (b, s)
  | (none, s) => absent.map fun b => (b, s)

namespace Codec

def string : Codec String where
  ty := .string
  ser := .string
  de
    | .string s => some s
    | _ => none
  norm_eq := by intro v; cases v <;> rfl
  shaped := by
    intro s
    simp [Shaped]

def boolean : Codec Bool where
  ty := .boolean
  ser := .boolean
  de
    | .boolean b => some b
    | _ => none
  norm_eq := by intro v; cases v <;> rfl
  shaped := by
    intro b
    simp [Shaped]

/-- An unsigned integer type of some width. -/
def unsigned {α : Type} (bits : Nat) (ofNat : Nat → α) (toNat : α → Nat)
    (hlt : ∀ a, toNat a < 2 ^ bits) (hof : ∀ n < 2 ^ bits, toNat (ofNat n) = n) : Codec α where
  ty := .unsigned bits
  ser a := .integer (toNat a)
  de
    | .integer i => if 0 ≤ i ∧ i < 2 ^ bits then some (ofNat i.toNat) else none
    | _ => none
  norm_eq := by
    intro v
    cases v with
    | integer i =>
        by_cases h : 0 ≤ i ∧ i < 2 ^ bits
        · have hnat : i.toNat < 2 ^ bits := by
            have hcast : (i.toNat : Int) = i := Int.toNat_of_nonneg h.1
            have hi : (i.toNat : Int) < ((2 ^ bits : Nat) : Int) := by
              rw [hcast]
              simpa using h.2
            exact Int.ofNat_lt.mp hi
          simp [norm, h, hof _ hnat]
        · simp [norm, h]
    | _ => rfl
  shaped := by
    intro a
    exact ⟨toNat a, rfl, hlt a⟩

def u8 : Codec UInt8 :=
  unsigned 8 UInt8.ofNat UInt8.toNat UInt8.toNat_lt fun n h => by
    rw [UInt8.toNat_ofNat']
    exact Nat.mod_eq_of_lt h

def u16 : Codec UInt16 :=
  unsigned 16 UInt16.ofNat UInt16.toNat UInt16.toNat_lt fun n h => by
    rw [UInt16.toNat_ofNat']
    exact Nat.mod_eq_of_lt h

/-- A struct: its fields, in a table or an array. -/
def struct {α β : Type} (fs : Fields α) (mk : α → β) (fields : β → α)
    (h : ∀ a, fields (mk a) = a) : Codec β where
  ty := .table fs.tys
  ser b := .table (sortKeys (fs.ser (fields b)))
  de v := v.source.bind fun s => (fs.de s).map mk
  norm_eq := by
    intro v
    rw [norm_table]
    cases hs : v.source with
    | none => rfl
    | some s =>
        simp only [Option.bind_some, ← fs.norm_eq s, Option.map_map]
        cases fs.de s with
        | none => rfl
        | some a => simp [h]
  shaped := by
    intro b
    exact ⟨_, rfl, fs.shaped _⟩

/-- The items of a list read and written one by one. -/
theorem mapM_norm {β : Type} (c : Codec β) (items : List Value) :
    (items.mapM c.de).map (List.map c.ser) = items.mapM (norm c.ty) := by
  induction items with
  | nil => rfl
  | cons v items ih =>
      rw [List.mapM_cons, List.mapM_cons, ← ih, ← c.norm_eq v]
      cases c.de v <;> cases items.mapM c.de <;> rfl

/-- A `Vec`. -/
def array {β : Type} (c : Codec β) : Codec (List β) where
  ty := .array c.ty
  ser l := .array (l.map c.ser)
  de
    | .array items => items.mapM c.de
    | _ => none
  norm_eq := by
    intro v
    cases v with
    | array items =>
        simp only [norm, ← c.mapM_norm items, Option.map_map]
        rfl
    | _ => rfl
  shaped := by
    intro l
    refine ⟨_, rfl, ?_⟩
    intro x hx
    obtain ⟨b, _, rfl⟩ := List.mem_map.mp hx
    exact c.shaped b

end Codec

namespace Fields

def nil : Fields Unit where
  tys := []
  ser _ := []
  de _ := some ()
  norm_eq := by intro s; simp [normFields]
  shaped := by intro a; simp [ShapedFields]

/-- A field before others.  `write` is what is written of its value, `absent`
its value when there is none. -/
def cons {α β γ : Type} (k : String) (p : Presence) (c : Codec β) (write : α → Option Value)
    (read : β → α) (absent : Option α) (fs : Fields γ)
    (hkeep : ∀ b, write (read b) = p.keep (c.ser b))
    (habsent : absent.map write = p.absent)
    (hshaped : ∀ a v, write a = some v → Shaped c.ty v) : Fields (α × γ) where
  tys := (k, p, c.ty) :: fs.tys
  ser a := entry k (write a.1) ++ fs.ser a.2
  de s := do
    let (a, s) ← s.field k (fun v => (c.de v).map read) absent
    let rest ← fs.de s
    pure (a, rest)
  norm_eq := by
    intro s
    rw [normFields, Source.field]
    obtain ⟨v, s'⟩ := s.next k
    cases v with
    | some v =>
        simp only [← c.norm_eq v, ← fs.norm_eq s']
        cases c.de v with
        | none => rfl
        | some b => cases hrest : fs.de s' <;> simp [hrest, hkeep]
    | none =>
        simp only [← habsent, ← fs.norm_eq s']
        cases absent with
        | none => rfl
        | some a => cases hrest : fs.de s' <;> simp [hrest]
  shaped := by
    intro a
    rw [ShapedFields]
    cases hw : write a.1 with
    | none => exact Or.inr (fs.shaped a.2)
    | some v => exact Or.inl ⟨v, fs.ser a.2, rfl, hshaped a.1 v hw, fs.shaped a.2⟩

variable {α β : Type}

/-- A field without attributes. -/
def required (k : String) (c : Codec β) (fs : Fields α) : Fields (β × α) :=
  cons k .required c (fun b => some (c.ser b)) id none fs (fun b => rfl) rfl
    (by
      rintro b v ⟨⟩
      exact c.shaped b)

/-- `#[serde(default, skip_serializing_if = "Option::is_none")]`. -/
def optional (k : String) (c : Codec β) (fs : Fields α) : Fields (Option β × α) :=
  cons k .optional c (fun b => b.map c.ser) some (some none) fs (fun b => rfl) rfl
    (by
      intro b v hv
      obtain ⟨b, rfl, rfl⟩ := Option.map_eq_some_iff.mp hv
      exact c.shaped b)

/-- `#[serde(default, skip_serializing_if = "Vec::is_empty")]`. -/
def vec (k : String) (c : Codec β) (fs : Fields α) : Fields (List β × α) :=
  cons k .vec c.array (fun l => if l.isEmpty then none else some (c.array.ser l)) id (some []) fs
    (by
      intro l
      cases l <;> rfl)
    rfl
    (by
      intro l v hv
      split at hv
      · cases hv
      · cases hv
        exact c.array.shaped l)

/-- `#[serde(default)]`. -/
def default (k : String) (d : β) (c : Codec β) (fs : Fields α) : Fields (β × α) :=
  cons k (.default (c.ser d)) c (fun b => some (c.ser b)) id (some d) fs (fun b => rfl) rfl
    (by
      rintro b v ⟨⟩
      exact c.shaped b)

end Fields

end Toml
