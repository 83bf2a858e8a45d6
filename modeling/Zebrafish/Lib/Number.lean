import Mathlib.Algebra.Group.Int.Defs
import Mathlib.Algebra.Group.Nat.Defs

/-!
# Number

Rust's `from_str` for the primitive types: `bool`, `usize`, `i64` and `f64`.

Integers are a sign and ASCII digits within range.  A float is a decimal with
an optional fraction and exponent, or the name of a special value in any case,
and is given by the bits of the nearest double (ties to even).
-/

namespace Rust

/-- `bool::from_str`. -/
def parseBool (s : String) : Option Bool :=
  if s = "true" then some true else if s = "false" then some false else none

/-- The number one or more ASCII digits spell. -/
def parseDigits (cs : List Char) : Option Nat :=
  if cs ≠ [] ∧ cs.all Char.isDigit then some (Nat.ofDigitChars 10 cs 0) else none

/-- `usize::from_str`, on a 64-bit machine. -/
def parseUsize (cs : List Char) : Option Nat :=
  let digits := match cs with
    | '+' :: cs => cs
    | cs => cs
  (parseDigits digits).bind fun n => if n < 2 ^ 64 then some n else none

/-- An optional sign: whether it is a minus, and what follows. -/
def splitSign : List Char → Bool × List Char
  | '-' :: cs => (true, cs)
  | '+' :: cs => (false, cs)
  | cs => (false, cs)

/-- A number that fits into an `i64`. -/
def inI64 (i : Int) : Option Int := if -2 ^ 63 ≤ i ∧ i < 2 ^ 63 then some i else none

/-- `i64::from_str`. -/
def parseI64 (s : String) : Option Int :=
  let (neg, digits) := splitSign s.toList
  (parseDigits digits).bind fun n => inI64 (if neg then -n else n)

/-! ## floats -/

/-- The bits of the double nearest to `n / d`, ties to even. -/
def nearestDouble (n d : Nat) : UInt64 :=
  if n = 0 then 0 else
    -- the exponent of the leading bit, and of the last bit a double keeps
    let a : Int := (Nat.log2 n : Int) - Nat.log2 d
    let lead := if d * 2 ^ a.toNat ≤ n * 2 ^ (-a).toNat then a else a - 1
    let last := max (lead - 52) (-1074)
    let num := n * 2 ^ (-last).toNat
    let den := d * 2 ^ last.toNat
    let m := num / den
    let r := num % den
    let m := if den < 2 * r ∨ 2 * r = den ∧ m % 2 = 1 then m + 1 else m
    let bits := (last + 1074).toNat * 2 ^ 52 + m
    UInt64.ofNat (min bits (0x7ff * 2 ^ 52))

def infinity : UInt64 := 0x7ff0000000000000

def notANumber : UInt64 := 0x7ff8000000000000

/-- `Exp ::= 'e' Sign? Digit+`, or nothing. -/
def parseExponent : List Char → Option Int
  | [] => some 0
  | c :: cs =>
      if c = 'e' ∨ c = 'E' then
        let (neg, digits) := splitSign cs
        (parseDigits digits).map fun n => if neg then -n else n
      else none

/-- `Digit+ | Digit+ '.' Digit* | Digit* '.' Digit+`, and an exponent. -/
def parseDecimal (cs : List Char) : Option UInt64 :=
  let whole := cs.takeWhile Char.isDigit
  let rest := cs.dropWhile Char.isDigit
  let (frac, rest) := match rest with
    | '.' :: rest => (rest.takeWhile Char.isDigit, rest.dropWhile Char.isDigit)
    | rest => ([], rest)
  (parseDigits (whole ++ frac)).bind fun m =>
    (parseExponent rest).map fun exp =>
      let e : Int := exp - frac.length
      nearestDouble (m * 10 ^ e.toNat) (10 ^ (-e).toNat)

/-- `f64::from_str`. -/
def parseF64 (s : String) : Option UInt64 :=
  let (neg, cs) := splitSign s.toList
  let lower := cs.map Char.toLower
  let bits :=
    if lower = ['i', 'n', 'f'] ∨ lower = ['i', 'n', 'f', 'i', 'n', 'i', 't', 'y'] then
      some infinity
    else if lower = ['n', 'a', 'n'] then some notANumber
    else parseDecimal cs
  bits.map fun bits => if neg then bits ||| 0x8000000000000000 else bits

example : parseF64 "0.1" = some 0x3fb999999999999a ∧ parseF64 "-1.5e3" = some 0xc097700000000000 ∧
    parseF64 "5e-324" = some 1 ∧ parseF64 "1e400" = some infinity ∧ parseF64 "." = none := by
  decide +kernel

/-! ## printed numbers -/

/-- A number is written in digits. -/
theorem isDigit_repr (n : Nat) : n.repr.toList.all Char.isDigit := by
  rw [Nat.toList_repr, List.all_eq_true]
  intro c hc
  exact Nat.isDigit_of_mem_toDigits (by decide) (by decide) hc

/-- A printed number is read back. -/
theorem parseDigits_repr (n : Nat) : parseDigits n.repr.toList = some n := by
  have hdigits := isDigit_repr n
  rw [Nat.toList_repr] at hdigits ⊢
  rw [parseDigits, if_pos ⟨Nat.toDigits_ne_nil, hdigits⟩, Nat.ofDigitChars_ten_toDigits]

/-- A number of 64 bits is read back from its text. -/
theorem parseUsize_repr {n : Nat} (h : n < 2 ^ 64) : parseUsize n.repr.toList = some n := by
  have hdigits := isDigit_repr n
  have hparse := parseDigits_repr n
  unfold parseUsize
  split
  · next cs hcs =>
      rw [hcs, List.all_cons] at hdigits
      simp at hdigits
  · simp only [hparse, Option.bind_some, h, if_true]

/-- No number is read as a truth value. -/
theorem parseBool_repr (n : Nat) : parseBool n.repr = none := by
  have hdigits := isDigit_repr n
  unfold parseBool
  split
  · next h =>
      rw [h] at hdigits
      cases hdigits
  · split
    · next h =>
        rw [h] at hdigits
        cases hdigits
    · rfl

/-- A natural number has no sign. -/
theorem splitSign_repr (n : Nat) : splitSign n.repr.toList = (false, n.repr.toList) := by
  have hdigits := isDigit_repr n
  unfold splitSign
  split
  · next cs hcs =>
      rw [hcs, List.all_cons] at hdigits
      cases hdigits
  · next cs hcs =>
      rw [hcs, List.all_cons] at hdigits
      cases hdigits
  · rfl

/-- A natural number below 2^63 is in range. -/
theorem inI64_natCast {n : Nat} (h : n < 2 ^ 63) : inI64 n = some (n : Int) := by
  have hrange : -2 ^ 63 ≤ (n : Int) ∧ (n : Int) < 2 ^ 63 := by omega
  rw [inI64, if_pos hrange]

/-- Such a number is read back from its text. -/
theorem parseI64_repr {n : Nat} (h : n < 2 ^ 63) : parseI64 n.repr = some (n : Int) := by
  rw [parseI64, splitSign_repr]
  dsimp only
  rw [parseDigits_repr, Option.bind_some, if_neg Bool.false_ne_true, inI64_natCast h]

end Rust
