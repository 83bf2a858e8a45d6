import Zebrafish.Lib.Filter

/-!
# Zebrafish.System.Hostname

`to_valid_hostname` (`lib/zebrafish/functions`), which `S11hostname` makes a
hostname with: delete, squeeze, strip.

The class of the deletion, `[^a-zA-Z0-9\-]`, means to escape the hyphen.  In a
bracket expression a backslash is a character like any other, so backslashes
are kept, and `cleans_iff` says that they are all that goes wrong.
-/

namespace Zebrafish.System.Hostname

open Shell

/-! ## the function -/

/-- The characters that `[^a-zA-Z0-9\-]` does not match. -/
def isKept (c : Char) : Bool := c.isAlphanum || c = '\\' || c = '-'

/-- What the function makes of a line and prints. -/
def cleanLine (ln : List Char) : List Char :=
  let cleaned := capture (sed (List.filter isKept) (echo ln))
  let cleaned := capture (squeeze '-' (echo cleaned))
  let cleaned := capture (sed (strip '-') (echo cleaned))
  echo cleaned

/-- The lines `read -r` reads: what is ended by a newline, without NULs. -/
def readLines : List Char → List Char → List (List Char)
  | _, [] => []
  | line, c :: cs =>
      if c = '\n' then line :: readLines [] cs
      else if c = Char.ofNat 0 then readLines line cs
      else readLines (line ++ [c]) cs

/-- `to_valid_hostname`. -/
def toValidHostname (input : List Char) : List Char := (readLines [] input).flatMap cleanLine

/-! ## what it is for -/

/-- ASCII letters, digits and hyphens, with no hyphen at an end and no two
hyphens in a row. -/
structure ValidLabel (cs : List Char) : Prop where
  chars : ∀ c ∈ cs, c.isAlphanum ∨ c = '-'
  start : cs.head? ≠ some '-'
  finish : cs.getLast? ≠ some '-'
  single : ¬ ['-', '-'] <:+: cs

/-- The line printed for a line is a valid label, the line itself if that is
one, and printed again if it is read again. -/
def Cleans (line : List Char) : Prop :=
  ∃ out, toValidHostname (line ++ ['\n']) = out ++ ['\n'] ∧ ValidLabel out ∧
    (ValidLabel line → out = line) ∧ toValidHostname (out ++ ['\n']) = out ++ ['\n']

/-! ## the passes -/

/-- What the three passes leave of a line, with an `echo` before each of them. -/
def cleaned (line : List Char) : List Char :=
  strip '-' (passed (squeeze '-' (passed ((passed line).filter isKept))))

/-- Cleaning adds no characters. -/
theorem cleaned_sublist (line : List Char) : (cleaned line).Sublist (line.filter isKept) :=
  (isInfix_strip '-' _).sublist.trans <| (passed_sublist _).trans <|
    (squeeze_sublist '-' _).trans <| (passed_sublist _).trans ((passed_sublist line).filter isKept)

/-- After squeezing there are no two hyphens in a row. -/
theorem not_infix_squeezed (line : List Char) :
    ¬ ['-', '-'] <:+: passed (squeeze '-' (passed ((passed line).filter isKept))) :=
  not_infix_passed (by simp) (not_infix_squeeze '-' _)

/-- Without backslashes a valid label is left. -/
theorem validLabel_cleaned {line : List Char} (h : '\\' ∉ line) : ValidLabel (cleaned line) where
  chars c hc := by
    obtain ⟨hmem, hkept⟩ := List.mem_filter.mp ((cleaned_sublist line).mem hc)
    have hne : c ≠ '\\' := fun heq => h (heq ▸ hmem)
    simpa [isKept, hne] using hkept
  start := (ends_strip (not_infix_squeezed line)).1
  finish := (ends_strip (not_infix_squeezed line)).2
  single hdouble := not_infix_squeezed line (hdouble.trans (isInfix_strip '-' _))

/-- A valid label goes through all passes. -/
theorem cleaned_of_validLabel {line : List Char} (h : ValidLabel line) : cleaned line = line := by
  have hkept : line.filter isKept = line := by
    rw [List.filter_eq_self]
    intro c hc
    obtain halnum | rfl := h.chars c hc <;> simp [isKept, *]
  rw [cleaned, passed_of_head? h.start, hkept, passed_of_head? h.start,
    squeeze_of_not_infix h.single, passed_of_head? h.start, strip_of_ends h.start h.finish]

/-- A backslash goes through all passes. -/
theorem backslash_mem_cleaned {line : List Char} (h : '\\' ∈ line) : '\\' ∈ cleaned line := by
  have hpass {l : List Char} (hl : '\\' ∈ l) : passed l = l := passed_of_mem hl (by decide)
  have hkept : '\\' ∈ line.filter isKept := List.mem_filter.mpr ⟨h, by decide⟩
  have hsqueezed : '\\' ∈ squeeze '-' (line.filter isKept) := mem_squeeze hkept (by decide)
  rw [cleaned, hpass h, hpass hkept, hpass hsqueezed]
  exact mem_strip hsqueezed (by decide)

/-! ## lines -/

/-- A line is cleaned to its label and a newline. -/
theorem cleanLine_eq {line : List Char} (h : IsLine line) :
    cleanLine line = cleaned line ++ ['\n'] := by
  have hkept := (isLine_passed h).sublist (List.filter_sublist (p := isKept))
  have hsqueezed := (isLine_passed hkept).sublist (squeeze_sublist '-' _)
  have hpassed := isLine_passed hsqueezed
  simp only [cleanLine]
  rw [capture_sed_echo h (by simp) hkept, capture_squeeze_echo hkept (by decide),
    capture_sed_echo hsqueezed (by decide) (hpassed.sublist (isInfix_strip '-' _).sublist),
    ← cleaned]
  refine if_neg fun hopt => ?_
  exact (ends_strip (not_infix_squeezed line)).1 (head?_of_isEchoOption hopt)

/-- A line is read without its NULs. -/
theorem readLines_line {cs : List Char} (h : '\n' ∉ cs) (line : List Char) :
    readLines line (cs ++ ['\n']) = [line ++ cs.filter (· ≠ Char.ofNat 0)] := by
  induction cs generalizing line with
  | nil => simp [readLines]
  | cons c cs ih =>
      simp only [List.mem_cons, not_or] at h
      rw [List.cons_append, readLines, if_neg (Ne.symm h.1)]
      split
      · next hnul => simp [ih h.2, hnul]
      · next hnul => simp [ih h.2, hnul]

/-- The function on a single line. -/
theorem toValidHostname_line {line : List Char} (h : '\n' ∉ line) :
    toValidHostname (line ++ ['\n']) = cleaned (line.filter (· ≠ Char.ofNat 0)) ++ ['\n'] := by
  have hline : IsLine (line.filter (· ≠ Char.ofNat 0)) :=
    ⟨fun hmem => h (List.mem_filter.mp hmem).1, by simp⟩
  rw [toValidHostname, readLines_line h, List.flatMap_singleton, List.nil_append,
    cleanLine_eq hline]

/-- A label is a line. -/
theorem ValidLabel.isLine {cs : List Char} (h : ValidLabel cs) : IsLine cs := by
  constructor
  · intro hmem
    exact absurd (h.chars _ hmem) (by decide)
  · intro hmem
    exact absurd (h.chars _ hmem) (by decide)

/-- A label has no NUL. -/
theorem ValidLabel.filter_nul {cs : List Char} (h : ValidLabel cs) :
    cs.filter (· ≠ Char.ofNat 0) = cs := by
  rw [List.filter_eq_self]
  intro c hc
  have hne : c ≠ Char.ofNat 0 := fun heq => h.isLine.2 (heq ▸ hc)
  simpa using hne

/-- A line is cleaned if and only if it has no backslash. -/
theorem cleans_iff {line : List Char} (h : '\n' ∉ line) : Cleans line ↔ '\\' ∉ line := by
  have hprinted := toValidHostname_line h
  constructor
  · rintro ⟨out, hout, hvalid, _⟩ hmem
    obtain rfl := List.append_cancel_right (hprinted.symm.trans hout)
    have hkept : '\\' ∈ line.filter (· ≠ Char.ofNat 0) := List.mem_filter.mpr ⟨hmem, by decide⟩
    exact absurd (hvalid.chars _ (backslash_mem_cleaned hkept)) (by decide)
  · intro hfree
    have hclean : '\\' ∉ line.filter (· ≠ Char.ofNat 0) := fun hmem =>
      hfree (List.mem_filter.mp hmem).1
    have hvalid := validLabel_cleaned hclean
    refine ⟨_, hprinted, hvalid, fun hline => ?_, ?_⟩
    · rw [hline.filter_nul, cleaned_of_validLabel hline]
    · rw [toValidHostname_line hvalid.isLine.1, hvalid.filter_nul, cleaned_of_validLabel hvalid]

theorem cleans_web1 : Cleans ['w', 'e', 'b', '_', '1', '-'] :=
  (cleans_iff (by decide)).mpr (by decide)

/-- The backslash of `a\b` is printed. -/
theorem not_cleans_backslash : ¬ Cleans ['a', '\\', 'b'] := by
  rintro ⟨out, hout, hvalid, _⟩
  have hprinted : toValidHostname ['a', '\\', 'b', '\n'] = ['a', '\\', 'b', '\n'] := by decide
  obtain rfl : ['a', '\\', 'b'] = out := List.append_cancel_right (hprinted.symm.trans hout)
  exact absurd (hvalid.chars '\\' (by decide)) (by decide)

end Zebrafish.System.Hostname
