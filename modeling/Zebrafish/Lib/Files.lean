/-!
# Files

A file system as processes see it: names for inodes, and bytes in them.

A name can be opened for writing, which empties the file or makes a new one,
and renamed over another name.  An open file is its inode, so it can still be
written to after the name is gone or has become another one's.  No two names
share an inode; this and the freshness of new ones are part of the type.
-/

namespace Files

abbrev Inode := Nat

abbrev Bytes := List UInt8

structure Fs (κ : Type) where
  entries : κ → Option Inode
  data : Inode → Bytes
  next : Inode
  fresh : ∀ e i, entries e = some i → i < next
  single : ∀ e e' i, entries e = some i → entries e' = some i → e = e'

variable {κ : Type}

/-- A table with one entry changed. -/
def assign {α β : Type} [DecidableEq α] (f : α → β) (a : α) (b : β) : α → β :=
  fun x => if x = a then b else f x

/-- The entry that was changed. -/
@[simp] theorem assign_self {α β : Type} [DecidableEq α] (f : α → β) (a : α) (b : β) :
    assign f a b a = b := if_pos rfl

/-- The other entries are as they were. -/
@[simp] theorem assign_of_ne {α β : Type} [DecidableEq α] {f : α → β} {a x : α} {b : β}
    (h : x ≠ a) : assign f a b x = f x := if_neg h

namespace Fs

/-- The content of a file, if it is there. -/
def read (fs : Fs κ) (e : κ) : Option Bytes := (fs.entries e).map fs.data

/-- Open a file for writing, empty. -/
def create [DecidableEq κ] (fs : Fs κ) (e : κ) : Fs κ × Inode :=
  match h : fs.entries e with
  | some i => ({ fs with data := assign fs.data i [] }, i)
  | none =>
      ({ fs with
          entries := assign fs.entries e (some fs.next)
          data := assign fs.data fs.next []
          next := fs.next + 1
          fresh := by
            intro e' i hi
            by_cases he : e' = e
            · subst he
              rw [assign_self] at hi
              cases hi
              exact Nat.lt_succ_self _
            · rw [assign_of_ne he] at hi
              exact Nat.lt_succ_of_lt (fs.fresh e' i hi)
          single := by
            intro e₁ e₂ i h₁ h₂
            by_cases he₁ : e₁ = e <;> by_cases he₂ : e₂ = e
            · rw [he₁, he₂]
            · subst he₁
              rw [assign_self] at h₁
              rw [assign_of_ne he₂] at h₂
              cases h₁
              exact absurd (fs.fresh _ _ h₂) (Nat.lt_irrefl _)
            · subst he₂
              rw [assign_self] at h₂
              rw [assign_of_ne he₁] at h₁
              cases h₂
              exact absurd (fs.fresh _ _ h₁) (Nat.lt_irrefl _)
            · rw [assign_of_ne he₁] at h₁
              rw [assign_of_ne he₂] at h₂
              exact fs.single e₁ e₂ i h₁ h₂ }, fs.next)

/-- Overwrite bytes from an offset on; a gap before it reads as zeros. -/
def overwrite (content : Bytes) (off : Nat) (bytes : Bytes) : Bytes :=
  (content ++ List.replicate (off - content.length) 0).take off ++ bytes ++
    content.drop (off + bytes.length)

/-- Write to an open file. -/
def write (fs : Fs κ) (i : Inode) (off : Nat) (bytes : Bytes) : Fs κ :=
  { fs with data := assign fs.data i (overwrite (fs.data i) off bytes) }

/-- Give a file another name, in place of what had it. -/
def rename [DecidableEq κ] (fs : Fs κ) (e e' : κ) : Option (Fs κ) :=
  match h : fs.entries e with
  | none => none
  | some i =>
      some { fs with
        entries := assign (assign fs.entries e none) e' (some i)
        fresh := by
          intro x j hj
          by_cases hx' : x = e'
          · subst hx'
            rw [assign_self] at hj
            cases hj
            exact fs.fresh e i h
          · rw [assign_of_ne hx'] at hj
            by_cases hx : x = e
            · subst hx
              rw [assign_self] at hj
              cases hj
            · rw [assign_of_ne hx] at hj
              exact fs.fresh x j hj
        single := by
          have hold : ∀ x j, x ≠ e' → assign (assign fs.entries e none) e' (some i) x = some j →
              x ≠ e ∧ fs.entries x = some j := by
            intro x j hx' hj
            rw [assign_of_ne hx'] at hj
            by_cases hx : x = e
            · subst hx
              rw [assign_self] at hj
              cases hj
            · rw [assign_of_ne hx] at hj
              exact ⟨hx, hj⟩
          intro x y j hx hy
          by_cases hxe : x = e' <;> by_cases hye : y = e'
          · rw [hxe, hye]
          · subst hxe
            rw [assign_self] at hx
            cases hx
            obtain ⟨hne, hy⟩ := hold y i hye hy
            exact absurd (fs.single y e i hy h) hne
          · subst hye
            rw [assign_self] at hy
            cases hy
            obtain ⟨hne, hx⟩ := hold x i hxe hx
            exact absurd (fs.single x e i hx h) hne
          · exact fs.single x y j (hold x j hxe hx).2 (hold y j hye hy).2 }

/-! ## what is read -/

/-- A file that was opened is there and empty. -/
theorem entries_create [DecidableEq κ] (fs : Fs κ) (e : κ) :
    (fs.create e).1.entries e = some (fs.create e).2 ∧
      (fs.create e).1.data (fs.create e).2 = [] := by
  unfold create
  split
  · next i h => exact ⟨h, assign_self _ _ _⟩
  · exact ⟨assign_self _ _ _, assign_self _ _ _⟩

/-- Opening one file leaves the others. -/
theorem read_create_of_ne [DecidableEq κ] (fs : Fs κ) {e e' : κ} (h : e' ≠ e) :
    (fs.create e).1.read e' = fs.read e' := by
  unfold create read
  split
  · next i hi =>
      cases he' : fs.entries e' with
      | none => rfl
      | some j =>
          have hne : j ≠ i := fun heq => h (fs.single e' e i (heq ▸ he') hi)
          simp [hne]
  · simp only [assign_of_ne h]
    cases he' : fs.entries e' with
    | none => rfl
    | some j =>
        have hne : j ≠ fs.next := Nat.ne_of_lt (fs.fresh e' j he')
        simp [hne]

/-- What is in a file after a write. -/
theorem data_write (fs : Fs κ) (i : Inode) (off : Nat) (bytes : Bytes) :
    (fs.write i off bytes).data i = overwrite (fs.data i) off bytes := assign_self _ _ _

/-- Writing to one file leaves the others. -/
theorem read_write_of_ne (fs : Fs κ) {e e' : κ} {i : Inode} (hi : fs.entries e = some i)
    (h : e' ≠ e) (off : Nat) (bytes : Bytes) : (fs.write i off bytes).read e' = fs.read e' := by
  unfold write read
  cases he' : fs.entries e' with
  | none => rfl
  | some j =>
      have hne : j ≠ i := fun heq => h (fs.single e' e i (heq ▸ he') hi)
      simp [hne]

/-- The new name reads as the old one did. -/
theorem read_rename [DecidableEq κ] {fs fs' : Fs κ} {e e' : κ} (h : fs.rename e e' = some fs') :
    fs'.read e' = fs.read e := by
  unfold rename at h
  split at h
  · cases h
  · next i hi =>
      cases h
      simp [read, hi]

/-- A file that is there can be renamed. -/
theorem rename_of_read [DecidableEq κ] {fs : Fs κ} {e : κ} {content : Bytes}
    (h : fs.read e = some content) (e' : κ) : ∃ fs', fs.rename e e' = some fs' := by
  obtain ⟨i, hi, _⟩ := Option.map_eq_some_iff.mp h
  unfold rename
  split
  · next hnone =>
      rw [hi] at hnone
      cases hnone
  · exact ⟨_, rfl⟩

/-- The next piece of a text extends what is there by that piece. -/
theorem overwrite_take (text : Bytes) {off n : Nat} (h : off ≤ text.length) :
    overwrite (text.take off) off ((text.drop off).take n) = text.take (off + n) := by
  have hlen : (text.take off).length = off := List.length_take_of_le h
  have hdrop : (text.take off).drop (off + ((text.drop off).take n).length) = [] :=
    List.drop_eq_nil_of_le (by omega)
  rw [overwrite, hlen, hdrop, Nat.sub_self, List.replicate_zero, List.append_nil, List.append_nil,
    List.take_of_length_le (Nat.le_of_eq hlen), List.take_add]

end Fs

end Files
