import Mathlib.Algebra.GroupWithZero.Nat
import Mathlib.Data.List.Basic

/-!
# Format

Binary formats that carry their own roundtrip.

A `Format α` writes some values of `α` as bytes and reads them back from the
front of a longer buffer; `get_put` is the roundtrip, and every combinator
proves it once from its parts.  A format assembled from `u8`, `u16`, `u32`,
`bind`, `many`, `terminated`, … therefore roundtrips by construction.
-/

namespace Format

/-- There are nibbles. -/
instance neZero_sixteen : NeZero 16 := ⟨by decide⟩

/-! ## big-endian words -/

/-- The two big-endian bytes of a 16-bit word. -/
def be16 (n : UInt16) : List UInt8 := [(n >>> 8).toUInt8, n.toUInt8]

/-- The word two big-endian bytes spell. -/
def ofBe16 (hi lo : UInt8) : UInt16 := UInt16.ofNat (hi.toNat * 256 + lo.toNat)

/-- The value of two bytes, the high one first. -/
theorem toNat_ofBe16 (hi lo : UInt8) : (ofBe16 hi lo).toNat = hi.toNat * 256 + lo.toNat := by
  have h1 := hi.toNat_lt
  have h2 := lo.toNat_lt
  rw [ofBe16, UInt16.toNat_ofNat']
  exact Nat.mod_eq_of_lt (by omega)

/-- A number is read back from its two bytes. -/
theorem ofBe16_be16 (n : UInt16) : ofBe16 (n >>> 8).toUInt8 n.toUInt8 = n := by
  apply UInt16.toNat_inj.mp
  have h := n.toNat_lt
  have h8 : UInt16.toNat 8 % 16 = 8 := rfl
  rw [toNat_ofBe16]
  simp only [UInt16.toNat_toUInt8, UInt16.toNat_shiftRight, Nat.shiftRight_eq_div_pow, h8]
  omega

/-- Two bytes are those of the number they are read as. -/
theorem be16_ofBe16 (hi lo : UInt8) : be16 (ofBe16 hi lo) = [hi, lo] := by
  have h1 := hi.toNat_lt
  have h2 := lo.toNat_lt
  have h8 : UInt16.toNat 8 % 16 = 8 := rfl
  have hhi : ((ofBe16 hi lo) >>> 8).toUInt8 = hi := by
    apply UInt8.toNat_inj.mp
    simp only [UInt16.toNat_toUInt8, UInt16.toNat_shiftRight, Nat.shiftRight_eq_div_pow, h8,
      toNat_ofBe16]
    omega
  have hlo : (ofBe16 hi lo).toUInt8 = lo := by
    apply UInt8.toNat_inj.mp
    simp only [UInt16.toNat_toUInt8, toNat_ofBe16]
    omega
  rw [be16, hhi, hlo]

/-- Different numbers have different bytes. -/
theorem be16_injective : Function.Injective be16 := by
  intro a b h
  simp only [be16, List.cons.injEq, and_true] at h
  rw [← ofBe16_be16 a, ← ofBe16_be16 b, h.1, h.2]

@[simp] theorem length_be16 (n : UInt16) : (be16 n).length = 2 := rfl

end Format

open Format

/-- A binary format: what it writes it reads back, whatever follows. -/
structure Format (α : Type) where
  put : α → Option (List UInt8)
  get : List UInt8 → Option (α × List UInt8)
  get_put : ∀ a b rest, put a = some b → get (b ++ rest) = some (a, rest)

namespace Format

variable {α β : Type}

/-! ## words -/

/-- One byte. -/
def u8 : Format UInt8 where
  put n := some [n]
  get
    | n :: rest => some (n, rest)
    | _ => none
  get_put := by
    intro n b rest h
    cases h
    rfl

/-- A big-endian 16-bit word. -/
def u16 : Format UInt16 where
  put n := some (be16 n)
  get
    | hi :: lo :: rest => some (ofBe16 hi lo, rest)
    | _ => none
  get_put := by
    intro n b rest h
    cases h
    simp [be16, ofBe16_be16]

/-! ## combinators -/

/-- One value after another, the second format chosen by the first value. -/
def bind (f : Format α) (g : α → Format β) : Format (α × β) where
  put p := do
    let x ← f.put p.1
    let y ← (g p.1).put p.2
    pure (x ++ y)
  get b := do
    let (a, rest) ← f.get b
    let (c, rest') ← (g a).get rest
    pure ((a, c), rest')
  get_put := by
    rintro ⟨a, c⟩ b rest h
    simp only [Option.bind_eq_bind, Option.bind_eq_some_iff, Option.pure_def,
      Option.some.injEq] at h
    obtain ⟨x, hx, y, hy, rfl⟩ := h
    rw [List.append_assoc, f.get_put a x _ hx]
    simp [(g a).get_put c y rest hy]

/-- One value after another. -/
def seq (f : Format α) (g : Format β) : Format (α × β) := f.bind fun _ => g

/-- Read a format's values as another type's; `ofView` may refuse some. -/
def view (f : Format α) (toView : α → Option β) (ofView : β → Option α)
    (h : ∀ a b, ofView b = some a → toView a = some b) : Format β where
  put b := (ofView b).bind f.put
  get s := do
    let (a, rest) ← f.get s
    let b ← toView a
    pure (b, rest)
  get_put := by
    intro b s rest hs
    obtain ⟨a, ha, hput⟩ := Option.bind_eq_some_iff.mp hs
    rw [f.get_put a s rest hput]
    simp [h a b ha]

/-- Write the items of a list one after another. -/
def putMany (f : Format α) : List α → Option (List UInt8)
  | [] => some []
  | a :: as => do
      let x ← f.put a
      let y ← putMany f as
      pure (x ++ y)

/-- Read `n` items. -/
def getMany (f : Format α) : Nat → List UInt8 → Option (List α × List UInt8)
  | 0, s => some ([], s)
  | n + 1, s => do
      let (a, rest) ← f.get s
      let (as, rest') ← getMany f n rest
      pure (a :: as, rest')

/-- A sequence is read back by its length. -/
theorem getMany_putMany (f : Format α) (as : List α) (b rest : List UInt8)
    (h : putMany f as = some b) : getMany f as.length (b ++ rest) = some (as, rest) := by
  induction as generalizing b with
  | nil => cases h; rfl
  | cons a as ih =>
      simp only [putMany, Option.bind_eq_bind, Option.bind_eq_some_iff, Option.pure_def,
        Option.some.injEq] at h
      obtain ⟨x, hx, y, hy, rfl⟩ := h
      rw [List.append_assoc, List.length_cons, getMany, f.get_put a x _ hx]
      simp [ih y hy]

/-- Exactly `n` items. -/
def many (f : Format α) (n : Nat) : Format (List α) where
  put as := if as.length = n then putMany f as else none
  get := getMany f n
  get_put := by
    intro as b rest h
    by_cases hn : as.length = n
    · rw [if_pos hn] at h
      subst hn
      exact getMany_putMany f as b rest h
    · simp [hn] at h

/-- Raw bytes are written as they are. -/
@[simp] theorem putMany_u8 (bs : List UInt8) : putMany u8 bs = some bs := by
  induction bs with
  | nil => rfl
  | cons b bs ih =>
      rw [putMany, ih]
      rfl

/-- A list behind a 16-bit count; longer lists are not written. -/
def counted16 (f : Format α) : Format (List α) :=
  (u16.bind fun n => f.many n.toNat).view (fun p => some p.2)
    (fun as => some (UInt16.ofNat as.length, as))
    (by
      intro p as h
      cases h
      rfl)

/-- A list behind an 8-bit count. -/
def counted8 (f : Format α) : Format (List α) :=
  (u8.bind fun n => f.many n.toNat).view (fun p => some p.2)
    (fun as => some (UInt8.ofNat as.length, as))
    (by
      intro p as h
      cases h
      rfl)

/-- Short byte strings are written behind their length. -/
theorem put_counted8_u8 {bs : List UInt8} (h : bs.length < 256) :
    u8.counted8.put bs = some (UInt8.ofNat bs.length :: bs) := by
  have hn : (UInt8.ofNat bs.length).toNat = bs.length := by
    rw [UInt8.toNat_ofNat']
    exact Nat.mod_eq_of_lt h
  have hmany : (u8.many (UInt8.ofNat bs.length).toNat).put bs = some bs := by
    rw [many, hn]
    exact (if_pos rfl).trans (putMany_u8 bs)
  simp only [counted8, view, bind, Option.bind_some, hmany]
  rfl

/-- A 32-bit word, as its two halves. -/
def u32 : Format UInt32 :=
  (u16.seq u16).view (fun p => some (UInt32.ofNat (p.1.toNat * 65536 + p.2.toNat)))
    (fun n => some (UInt16.ofNat (n.toNat / 65536), UInt16.ofNat n.toNat))
    (by
      intro p n h
      cases h
      have hn := n.toNat_lt
      congr 1
      apply UInt32.toNat_inj.mp
      simp only [UInt16.toNat_ofNat', UInt32.toNat_ofNat']
      omega)

/-! ## terminated lists -/

/-- Everything the format writes starts with a byte other than `stop`. -/
def StartsOff (stop : UInt8) (f : Format α) : Prop :=
  ∀ a b, f.put a = some b → ∃ x xs, b = x :: xs ∧ x ≠ stop

/-- Write items one after another and a stop byte after the last. -/
def putUntil (stop : UInt8) (f : Format α) : List α → Option (List UInt8)
  | [] => some [stop]
  | a :: as => do
      let x ← f.put a
      let y ← putUntil stop f as
      pure (x ++ y)

/-- Read items up to the stop byte; `n` items need `n + 1` steps. -/
def getUntil (stop : UInt8) (f : Format α) : Nat → List UInt8 → Option (List α × List UInt8)
  | fuel + 1, b :: rest =>
      if b = stop then some ([], rest)
      else do
        let (a, rest) ← f.get (b :: rest)
        let (as, rest') ← getUntil stop f fuel rest
        pure (a :: as, rest')
  | _, _ => none

/-- A sequence is read back up to its end mark. -/
theorem getUntil_putUntil {stop : UInt8} {f : Format α} (hoff : StartsOff stop f)
    (as : List α) (b rest : List UInt8) (fuel : Nat) (h : putUntil stop f as = some b)
    (hf : as.length < fuel) : getUntil stop f fuel (b ++ rest) = some (as, rest) := by
  induction as generalizing b fuel with
  | nil =>
      cases h
      obtain ⟨n, rfl⟩ : ∃ n, fuel = n + 1 := ⟨fuel - 1, by simp at hf; omega⟩
      simp [getUntil]
  | cons a as ih =>
      obtain ⟨n, rfl⟩ : ∃ n, fuel = n + 1 := ⟨fuel - 1, by simp at hf; omega⟩
      simp only [putUntil, Option.bind_eq_bind, Option.bind_eq_some_iff, Option.pure_def,
        Option.some.injEq] at h
      obtain ⟨x, hx, y, hy, rfl⟩ := h
      have hget := f.get_put a x (y ++ rest) hx
      have hih := ih y n hy (by simp at hf; omega)
      obtain ⟨c, cs, rfl, hc⟩ := hoff a x hx
      simp only [List.cons_append, List.append_assoc] at hget ⊢
      rw [getUntil, if_neg hc, hget]
      simp [hih]

/-- Each item of a sequence takes a byte, and the end mark one more. -/
theorem length_lt_of_putUntil {stop : UInt8} {f : Format α} (hoff : StartsOff stop f)
    {as : List α} {b : List UInt8} (h : putUntil stop f as = some b) : as.length < b.length := by
  induction as generalizing b with
  | nil => cases h; simp
  | cons a as ih =>
      simp only [putUntil, Option.bind_eq_bind, Option.bind_eq_some_iff, Option.pure_def,
        Option.some.injEq] at h
      obtain ⟨x, hx, y, hy, rfl⟩ := h
      obtain ⟨c, cs, rfl, _⟩ := hoff a x hx
      have hlt := ih hy
      simp
      omega

/-- A list ended by a stop byte; the reader's fuel is the buffer's length. -/
def terminated (stop : UInt8) (f : Format α) (hoff : StartsOff stop f) : Format (List α) where
  put := putUntil stop f
  get s := getUntil stop f (s.length + 1) s
  get_put := by
    intro as b rest h
    have hf : as.length < (b ++ rest).length + 1 := by
      have hlt := length_lt_of_putUntil hoff h
      rw [List.length_append]
      omega
    exact getUntil_putUntil hoff as b rest _ h hf

/-- A format writes different values differently. -/
theorem put_inj (f : Format α) {a a' : α} {b : List UInt8} (h : f.put a = some b)
    (h' : f.put a' = some b) : a = a' := by
  have h1 := f.get_put a b [] h
  have h2 := f.get_put a' b [] h'
  rw [h1] at h2
  exact congrArg Prod.fst (Option.some.inj h2)

end Format
