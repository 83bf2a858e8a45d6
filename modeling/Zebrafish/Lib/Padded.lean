import Mathlib.Algebra.Group.Nat.Defs
import Mathlib.Data.List.Basic
import Mathlib.Order.Nat

/-!
# Padded

Numbers printed with leading zeros, as `{:02}` prints them.

Texts made of fields of a fixed width are in the order of their fields
(`pad_append_lt_iff`), as long as every number fits into its field.
-/

namespace Rust

/-- `{:0w}` of an unsigned number. -/
def pad (w n : Nat) : List Char := n.repr.toList.leftpad w '0'

/-- `{:0w}` of a signed number: the sign stands before the zeros. -/
def padInt (w : Nat) (i : Int) : List Char :=
  if i < 0 then '-' :: pad (w - 1) i.natAbs else pad w i.natAbs

example : pad 3 7 = ['0', '0', '7'] ∧ padInt 4 (-7) = ['-', '0', '0', '7'] ∧
    pad 2 1234 = ['1', '2', '3', '4'] := by decide +kernel

/-- A natural number is padded as such. -/
@[simp] theorem padInt_natCast (w n : Nat) : padInt w n = pad w n := by
  rw [padInt, if_neg (by omega), Int.natAbs_natCast]

/-! ## one digit after another -/

/-- A number of one digit. -/
theorem pad_one {n : Nat} (h : n < 10) : pad 1 n = [n.digitChar] := by
  rw [pad, Nat.toList_repr, Nat.toDigits_of_lt_base h]
  rfl

/-- The last digit is the remainder by ten. -/
theorem pad_succ (w n : Nat) :
    pad (w + 2) n = pad (w + 1) (n / 10) ++ [(n % 10).digitChar] := by
  simp only [pad, Nat.toList_repr, List.leftpad]
  by_cases h : n < 10
  · rw [Nat.div_eq_of_lt h, Nat.mod_eq_of_lt h, Nat.toDigits_of_lt_base h, Nat.toDigits_zero]
    simp [List.replicate_succ']
  · rw [Nat.toDigits_of_base_le (by decide) (Nat.not_lt.mp h)]
    simp

/-- A number that fits takes the width exactly. -/
theorem length_pad {w n : Nat} (h : n < 10 ^ (w + 1)) : (pad (w + 1) n).length = w + 1 := by
  induction w generalizing n with
  | zero => simp [pad_one h]
  | succ w ih =>
      rw [Nat.pow_succ] at h
      rw [pad_succ, List.length_append, ih (Nat.div_lt_of_lt_mul (by omega))]
      simp

/-! ## the order of texts -/

/-- Texts are compared by what they begin with, if that is of one length. -/
theorem append_lt_append_iff {α : Type} [LT α] {a a' b b' : List α} (h : a.length = a'.length) :
    a ++ b < a' ++ b' ↔ a < a' ∨ a = a' ∧ b < b' := by
  induction a generalizing a' with
  | nil =>
      rw [List.length_nil, eq_comm, List.length_eq_zero_iff] at h
      simp [h]
  | cons x a ih =>
      cases a' with
      | nil => simp at h
      | cons x' a' =>
          simp only [List.length_cons, Nat.add_right_cancel_iff] at h
          simp only [List.cons_append, List.cons_lt_cons_iff, ih h, List.cons.injEq]
          tauto

/-- The order of the digits is that of their characters. -/
theorem digitChar_lt_iff {m n : Nat} (hm : m < 10) (hn : n < 10) :
    m.digitChar < n.digitChar ↔ m < n := by
  have h : ∀ m n : Fin 10, m.val.digitChar < n.val.digitChar ↔ m.val < n.val := by decide
  exact h ⟨m, hm⟩ ⟨n, hn⟩

/-- Different digits have different characters. -/
theorem digitChar_inj {m n : Nat} (hm : m < 10) (hn : n < 10) :
    m.digitChar = n.digitChar ↔ m = n := by
  have h : ∀ m n : Fin 10, m.val.digitChar = n.val.digitChar ↔ m.val = n.val := by decide
  exact h ⟨m, hm⟩ ⟨n, hn⟩

/-- Different numbers have different texts of one width. -/
theorem pad_inj {w m n : Nat} (hm : m < 10 ^ (w + 1)) (hn : n < 10 ^ (w + 1)) :
    pad (w + 1) m = pad (w + 1) n ↔ m = n := by
  induction w generalizing m n with
  | zero => simp [pad_one hm, pad_one hn, digitChar_inj hm hn]
  | succ w ih =>
      rw [Nat.pow_succ] at hm hn
      have hm' : m / 10 < 10 ^ (w + 1) := Nat.div_lt_of_lt_mul (by omega)
      have hn' : n / 10 < 10 ^ (w + 1) := Nat.div_lt_of_lt_mul (by omega)
      have hlen := (length_pad hm').trans (length_pad hn').symm
      have hlast := digitChar_inj (Nat.mod_lt m (show 10 > 0 by decide))
        (Nat.mod_lt n (show 10 > 0 by decide))
      rw [pad_succ, pad_succ]
      constructor
      · intro h
        obtain ⟨hfront, hback⟩ := List.append_inj h hlen
        have hdiv := (ih hm' hn').mp hfront
        have hmod := hlast.mp (List.cons.inj hback).1
        omega
      · rintro rfl
        rfl

/-- The order of texts of one width is that of the numbers. -/
theorem pad_lt_iff {w m n : Nat} (hm : m < 10 ^ (w + 1)) (hn : n < 10 ^ (w + 1)) :
    pad (w + 1) m < pad (w + 1) n ↔ m < n := by
  induction w generalizing m n with
  | zero => simp [pad_one hm, pad_one hn, List.cons_lt_cons_iff, digitChar_lt_iff hm hn]
  | succ w ih =>
      rw [Nat.pow_succ] at hm hn
      have hm' : m / 10 < 10 ^ (w + 1) := Nat.div_lt_of_lt_mul (by omega)
      have hn' : n / 10 < 10 ^ (w + 1) := Nat.div_lt_of_lt_mul (by omega)
      have hlen := (length_pad hm').trans (length_pad hn').symm
      rw [pad_succ, pad_succ, append_lt_append_iff hlen, ih hm' hn', pad_inj hm' hn']
      simp only [List.cons_lt_cons_iff, List.not_lt_nil, and_false, or_false,
        digitChar_lt_iff (Nat.mod_lt m (by decide)) (Nat.mod_lt n (by decide))]
      omega

/-- Texts that begin with a padded number are compared by it first. -/
theorem pad_append_lt_iff {w m n : Nat} (hm : m < 10 ^ (w + 1)) (hn : n < 10 ^ (w + 1))
    {a b : List Char} :
    pad (w + 1) m ++ a < pad (w + 1) n ++ b ↔ m < n ∨ m = n ∧ a < b := by
  rw [append_lt_append_iff ((length_pad hm).trans (length_pad hn).symm), pad_lt_iff hm hn,
    pad_inj hm hn]

end Rust
