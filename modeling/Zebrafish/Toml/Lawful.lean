import Zebrafish.Toml.Serde

/-!
# Toml.Lawful

Codecs that read back what they write.

`Codec.Lawful` is put together the way a codec is: for fields it is enough that
a table has them as they were written, whatever else is in it and in whatever
order, so one lemma about `Fields.cons` and one about `Codec.struct` are all
there is to a struct.
-/

namespace Toml

variable {α β γ : Type}

/-- Reading what was written gives it back. -/
def Codec.Lawful (c : Codec α) : Prop := ∀ a, c.de (c.ser a) = some a

/-- So does reading fields, from any table that has them as they were
written. -/
def Fields.Lawful (fs : Fields α) : Prop :=
  (fs.tys.map Prod.fst).Nodup → ∀ a entries,
    (∀ f ∈ fs.tys, entries.lookup f.1 = (fs.ser a).lookup f.1) → fs.de (.byKey entries) = some a

/-- A struct is written with each of its keys at most once. -/
theorem Fields.nodup_keys_ser {fs : Fields α} (hd : (fs.tys.map Prod.fst).Nodup) (a : α) :
    (keys (fs.ser a)).Nodup := (fs.shaped a).keys_sublist.nodup hd

/-- What is not the key of a field is not written. -/
theorem Fields.lookup_ser_of_not_mem {fs : Fields α} {k : String}
    (hk : k ∉ fs.tys.map Prod.fst) (a : α) : (fs.ser a).lookup k = none :=
  Assoc.lookup_eq_none_iff.mpr fun hmem => hk ((fs.shaped a).keys_sublist.subset hmem)

/-! ## fields -/

namespace Fields

/-- A struct without fields is read back as it is. -/
theorem Lawful.nil : nil.Lawful := fun _ _ _ _ => rfl

/-- One more field, where reading its value gives back what was written. -/
theorem Lawful.cons {k : String} {p : Presence} {c : Codec β} {write : α → Option Value}
    {read : β → α} {absent : Option α} {fs : Fields γ}
    {hkeep : ∀ b, write (read b) = p.keep (c.ser b)} {habsent : absent.map write = p.absent}
    {hshaped : ∀ a v, write a = some v → Shaped c.ty v}
    (hread : ∀ a v, write a = some v → (c.de v).map read = some a)
    (hskip : ∀ a, write a = none → absent = some a) (hfs : fs.Lawful) :
    (cons k p c write read absent fs hkeep habsent hshaped).Lawful := by
  intro hd a entries hlook
  have hk : k ∉ fs.tys.map Prod.fst := (List.nodup_cons.mp hd).1
  have hd : (fs.tys.map Prod.fst).Nodup := (List.nodup_cons.mp hd).2
  have hfirst : entries.lookup k = write a.1 :=
    (hlook _ List.mem_cons_self).trans
      (lookup_entry_append k (write a.1) (lookup_ser_of_not_mem hk a.2))
  have hrest : fs.de (.byKey entries) = some a.2 := by
    refine hfs hd a.2 entries fun f hf => ?_
    have hne : f.1 ≠ k := by
      rintro rfl
      exact hk (List.mem_map_of_mem hf)
    exact (hlook f (List.mem_cons_of_mem _ hf)).trans
      (lookup_entry_append_of_ne hne (write a.1) (fs.ser a.2))
  have hfield : (Source.byKey entries).field k (fun v => (c.de v).map read) absent =
      some (a.1, .byKey entries) := by
    simp only [Source.field, Source.next, hfirst]
    cases hw : write a.1 with
    | none => simp [hskip a.1 hw]
    | some v => simp [hread a.1 v hw]
  simp [Fields.cons, hfield, hrest]

variable {k : String} {c : Codec β} {fs : Fields α}

/-- A field that has to be there. -/
theorem Lawful.required (hc : c.Lawful) (hfs : fs.Lawful) : (required k c fs).Lawful := by
  refine Lawful.cons ?_ ?_ hfs
  · rintro b v ⟨⟩
    simp [hc b]
  · rintro b ⟨⟩

/-- A field that may be left out. -/
theorem Lawful.optional (hc : c.Lawful) (hfs : fs.Lawful) : (optional k c fs).Lawful := by
  refine Lawful.cons ?_ ?_ hfs
  · intro b v hv
    obtain ⟨b, rfl, rfl⟩ := Option.map_eq_some_iff.mp hv
    simp [hc b]
  · intro b hb
    rw [Option.map_eq_none_iff.mp hb]

/-- A field that has a default where it is left out. -/
theorem Lawful.default {d : β} (hc : c.Lawful) (hfs : fs.Lawful) :
    (Fields.default k d c fs).Lawful := by
  refine Lawful.cons ?_ ?_ hfs
  · rintro b v ⟨⟩
    simp [hc b]
  · rintro b ⟨⟩

end Fields

/-! ## codecs -/

namespace Codec

theorem Lawful.string : string.Lawful := fun _ => rfl

theorem Lawful.boolean : boolean.Lawful := fun _ => rfl

/-- Numbers of some width, where the conversion has an inverse. -/
theorem Lawful.unsigned {bits : Nat} {ofNat : Nat → α} {toNat : α → Nat}
    {hlt : ∀ a, toNat a < 2 ^ bits} {hof : ∀ n < 2 ^ bits, toNat (ofNat n) = n}
    (hback : ∀ a, ofNat (toNat a) = a) : (unsigned bits ofNat toNat hlt hof).Lawful := by
  intro a
  have hrange : (0 : Int) ≤ toNat a ∧ (toNat a : Int) < 2 ^ bits := by
    have hcast : ((toNat a : Nat) : Int) < ((2 ^ bits : Nat) : Int) := Int.ofNat_lt.mpr (hlt a)
    exact ⟨Int.natCast_nonneg _, by simpa using hcast⟩
  simp [Codec.unsigned, hrange, hback]

theorem Lawful.u8 : u8.Lawful := Lawful.unsigned fun _ => UInt8.ofNat_toNat

theorem Lawful.u16 : u16.Lawful := Lawful.unsigned fun _ => UInt16.ofNat_toNat

/-- A list of values is read back element by element. -/
theorem Lawful.array {c : Codec β} (hc : c.Lawful) : c.array.Lawful := by
  intro l
  change (l.map c.ser).mapM c.de = some l
  induction l with
  | nil => rfl
  | cons b l ih => simp [hc b, ih]

/-- A struct is read back if its fields are and if it consists of them. -/
theorem Lawful.struct {fs : Fields α} {mk : α → β} {fields : β → α}
    {h : ∀ a, fields (mk a) = a} (hd : (fs.tys.map Prod.fst).Nodup)
    (hback : ∀ b, mk (fields b) = b) (hfs : fs.Lawful) : (struct fs mk fields h).Lawful := by
  intro b
  have hde : fs.de (.byKey (sortKeys (fs.ser (fields b)))) = some (fields b) :=
    hfs hd _ _ fun f _ => lookup_sortKeys (Fields.nodup_keys_ser hd _) f.1
  simp [Codec.struct, Value.source, hde, hback]

end Codec

/-- A list of structs that may be left out where it is empty. -/
theorem Fields.Lawful.vec {k : String} {c : Codec β} {fs : Fields α} (hc : c.Lawful)
    (hfs : fs.Lawful) : (vec k c fs).Lawful := by
  refine Lawful.cons ?_ ?_ hfs
  · intro l v hv
    split at hv
    · cases hv
    · cases hv
      simp [hc.array l]
  · intro l hl
    split at hl
    · next hempty => rw [List.isEmpty_iff.mp hempty]
    · cases hl

end Toml
