/-!
# Rust

The few operations of Rust's standard library that can panic, as
`Except Panic`, and its clock.
-/

namespace Rust

/-- Why a program aborted. -/
inductive Panic
  | unwrapNone
  | clampMinAboveMax
  | durationUnderflow
  | capacityOverflow
deriving DecidableEq, Repr

/-- A sequence of two steps ends well when both do. -/
theorem bind_ok_iff {ε α β : Type} {x : Except ε α} {f : α → Except ε β} {b : β} :
    x >>= f = .ok b ↔ ∃ a, x = .ok a ∧ f a = .ok b := by
  cases x <;> simp [bind, Except.bind]

theorem ok_bind {ε α β : Type} (a : α) (f : α → Except ε β) : (.ok a >>= f) = f a := rfl

/-- A computation that ends in a result with `P` or in an error with `E`. -/
def Ends {ε α : Type} (E : ε → Prop) (P : α → Prop) : Except ε α → Prop
  | .ok a => P a
  | .error e => E e

/-- A computation, and then another on its result. -/
theorem Ends.bind {ε α β : Type} {E : ε → Prop} {P : α → Prop} {Q : β → Prop}
    {x : Except ε α} {f : α → Except ε β} (hx : Ends E P x) (hf : ∀ a, P a → Ends E Q (f a)) :
    Ends E Q (x >>= f) := by
  cases x with
  | ok a => exact hf a hx
  | error e => exact hx

/-- What is known of the result may be weakened. -/
theorem Ends.imp {ε α : Type} {E : ε → Prop} {P Q : α → Prop} {x : Except ε α}
    (hx : Ends E P x) (h : ∀ a, P a → Q a) : Ends E Q x := by
  cases x with
  | ok a => exact h a hx
  | error e => exact hx

/-- `Option::unwrap`. -/
def unwrap {α : Type} : Option α → Except Panic α
  | some a => .ok a
  | none => .error .unwrapNone

/-- `NonZeroUsize::new`. -/
def nonZero (n : Nat) : Option { n : Nat // 0 < n } :=
  if h : 0 < n then some ⟨n, h⟩ else none

/-- `Ord::min` on `u32`. -/
def min32 (a b : UInt32) : UInt32 := if a ≤ b then a else b

/-- The lesser of two numbers, as a natural number. -/
theorem toNat_min32 (a b : UInt32) : (min32 a b).toNat = min a.toNat b.toNat := by
  by_cases h : a ≤ b
  · rw [min32, if_pos h, Nat.min_eq_left (UInt32.le_iff_toNat_le.mp h)]
  · rw [min32, if_neg h]
    rw [UInt32.le_iff_toNat_le] at h
    omega

/-- `Ord::clamp` on `u32`, which asserts `lo <= hi`. -/
def clamp (x lo hi : UInt32) : Except Panic UInt32 :=
  if lo ≤ hi then .ok (if x < lo then lo else if hi < x then hi else x)
  else .error .clampMinAboveMax

/-- With bounds in order, a number is moved between them. -/
theorem clamp_of_le {lo hi : UInt32} (h : lo ≤ hi) (x : UInt32) :
    clamp x lo hi = .ok (if x < lo then lo else if hi < x then hi else x) := if_pos h

/-- With the bounds the other way round, `clamp` panics. -/
theorem clamp_of_not_le {lo hi : UInt32} (h : ¬ lo ≤ hi) (x : UInt32) :
    clamp x lo hi = .error .clampMinAboveMax := if_neg h

/-! ## time

Points of the monotonic clock (`Instant`) and spans of it (`Duration`) are
plain numbers of nanoseconds. -/

def nanosPerSec : Nat := 1000000000

/-- `Duration::from_secs`. -/
def Duration.fromSecs (n : Nat) : Nat := n * nanosPerSec

/-- `Duration::as_secs`: whole seconds. -/
def Duration.asSecs (d : Nat) : Nat := d / nanosPerSec

/-- `Instant::elapsed`, which saturates at zero. -/
def Instant.elapsed (since now : Nat) : Nat := now - since

/-- `Duration - Duration`, which panics below zero. -/
def Duration.sub (a b : Nat) : Except Panic Nat :=
  if b ≤ a then .ok (a - b) else .error .durationUnderflow

/-- A duration may be taken from a longer one. -/
theorem Duration.sub_of_le {a b : Nat} (h : b ≤ a) : Duration.sub a b = .ok (a - b) :=
  if_pos h

end Rust
