import Mathlib.Algebra.Group.Nat.Defs
import Mathlib.Data.List.Basic

/-!
# Echo

What `echo -e` prints: a text with its escapes replaced, and a newline.

Most texts only have the escape for a newline, and for them there are rules
(`echoE_of_plain`, `echoE_newline`).
-/

namespace Shell

/-- The number of a character, behind a backslash: how it is shown if there are
no digits, the base, how many digits there may be, and where it wraps. -/
structure Number where
  bare : List Char
  base : Nat
  digits : Nat
  modulus : Nat

/-- Where `echo -e` is: in plain text, behind a backslash, or in a number, with
the digits that may still come and what they came to so far. -/
inductive EchoMode
  | plain
  | escaped
  | number (n : Number) (left : Nat) (value : Option Nat)

/-- `\0nnn`, `\xHH`, `\uHHHH` and `\UHHHHHHHH`; the first two are bytes, written
here as the character of that number. -/
def numberOf : Char → Option Number
  | '0' => some ⟨[Char.ofNat 0], 8, 3, 256⟩
  | 'x' => some ⟨['\\', 'x'], 16, 2, 256⟩
  | 'u' => some ⟨['\\', 'u'], 16, 4, 2 ^ 32⟩
  | 'U' => some ⟨['\\', 'U'], 16, 8, 2 ^ 32⟩
  | _ => none

/-- The escapes of one character. -/
def escapeOf : Char → Option Char
  | 'a' => some (Char.ofNat 7)
  | 'b' => some (Char.ofNat 8)
  | 'e' => some (Char.ofNat 27)
  | 'E' => some (Char.ofNat 27)
  | 'f' => some (Char.ofNat 12)
  | 'n' => some '\n'
  | 'r' => some '\r'
  | 't' => some '\t'
  | 'v' => some (Char.ofNat 11)
  | '\\' => some '\\'
  | _ => none

def digitOf (base : Nat) (c : Char) : Option Nat :=
  let d :=
    if c.isDigit then c.toNat - '0'.toNat
    else if 'a' ≤ c ∧ c ≤ 'f' then c.toNat - 'a'.toNat + 10
    else if 'A' ≤ c ∧ c ≤ 'F' then c.toNat - 'A'.toNat + 10
    else base
  if d < base then some d else none

/-- The character of a number, as far as it was read. -/
def Number.shown (n : Number) : Option Nat → List Char
  | some v => [Char.ofNat (v % n.modulus)]
  | none => n.bare

/-- `echo -e`. -/
def echoE : EchoMode → List Char → List Char
  | .plain, [] => ['\n']
  | .plain, c :: cs => if c = '\\' then echoE .escaped cs else c :: echoE .plain cs
  | .escaped, [] => ['\\', '\n']
  | .escaped, c :: cs =>
      -- `\c` ends the output
      if c = 'c' then []
      else
        match escapeOf c with
        | some e => e :: echoE .plain cs
        | none =>
            match numberOf c with
            | some n => echoE (.number n n.digits none) cs
            | none => '\\' :: c :: echoE .plain cs
  | .number n _ value, [] => n.shown value ++ ['\n']
  | .number n left value, c :: cs =>
      match digitOf n.base c, left with
      | some d, left + 1 => echoE (.number n left (some (value.getD 0 * n.base + d))) cs
      | _, _ =>
          n.shown value ++ if c = '\\' then echoE .escaped cs else c :: echoE .plain cs

/-- A text without backslashes is printed as it is. -/
theorem echoE_of_plain {cs : List Char} (h : '\\' ∉ cs) (rest : List Char) :
    echoE .plain (cs ++ rest) = cs ++ echoE .plain rest := by
  induction cs with
  | nil => rfl
  | cons c cs ih =>
      simp only [List.mem_cons, not_or] at h
      rw [List.cons_append, echoE, if_neg (Ne.symm h.1), ih h.2]
      rfl

theorem echoE_newline (rest : List Char) :
    echoE .plain ('\\' :: 'n' :: rest) = '\n' :: echoE .plain rest := by
  simp [echoE, escapeOf]

example : echoE .plain ['a', '\\', 'x', '4', '1', 'b', '\\', 'q', '\\', 'n'] =
    ['a', 'A', 'b', '\\', 'q', '\n', '\n'] := by decide

end Shell
