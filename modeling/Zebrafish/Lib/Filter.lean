import Zebrafish.Lib.Lines

/-!
# Filter

Texts that go through small programs on their way from one variable to another,
`x=$(echo "$x" | sed …)`.

`echo` prints nothing of an argument that looks like an option, so that is what
such a step begins with (`passed`); otherwise a line goes through as it is
(`capture_sed_echo`, `capture_squeeze_echo`).
-/

namespace Shell

/-- An argument that `echo` takes as an option: a hyphen and letters of `neE`. -/
def isEchoOption : List Char → Bool
  | '-' :: c :: cs => (c :: cs).all fun c => c = 'n' || c = 'e' || c = 'E'
  | _ => false

/-- `echo` of one argument, without `-e`. -/
def echo (arg : List Char) : List Char :=
  if isEchoOption arg then (if 'n' ∈ arg then [] else ['\n']) else arg ++ ['\n']

/-- `sed` with a script that rewrites every line. -/
def sed (script : List Char → List Char) (text : List Char) : List Char :=
  unlines ((lines text).map script)

/-- `tr -s`: of a run of a character one is left. -/
def squeeze (c : Char) : List Char → List Char
  | [] => []
  | [d] => [d]
  | d :: e :: cs => if d = c ∧ e = c then squeeze c (e :: cs) else d :: squeeze c (e :: cs)

/-- `s/^c//`. -/
def stripStart (c : Char) : List Char → List Char
  | [] => []
  | d :: cs => if d = c then cs else d :: cs

/-- `s/c$//`. -/
def stripEnd (c : Char) (cs : List Char) : List Char := (stripStart c cs.reverse).reverse

example : squeeze '-' ['-', '-', 'a', '-', '-', '-', 'b'] = ['-', 'a', '-', 'b'] ∧
    stripEnd '-' ['a', '-'] = ['a'] := by decide

/-! ## one step -/

/-- What `echo` has left of a line. -/
def passed (line : List Char) : List Char := if isEchoOption line then [] else line

/-- A line as a shell has it in a variable. -/
def IsLine (line : List Char) : Prop := '\n' ∉ line ∧ Char.ofNat 0 ∉ line

/-- A part of a line is a line. -/
theorem IsLine.sublist {a b : List Char} (h : IsLine b) (hsub : a.Sublist b) : IsLine a :=
  ⟨fun hmem => h.1 (hsub.mem hmem), fun hmem => h.2 (hsub.mem hmem)⟩

/-- An option starts with a hyphen. -/
theorem head?_of_isEchoOption {arg : List Char} (h : isEchoOption arg) : arg.head? = some '-' := by
  unfold isEchoOption at h
  split at h
  · rfl
  · cases h

/-- A line that does not start with a hyphen is printed as it is. -/
theorem passed_of_head? {line : List Char} (h : line.head? ≠ some '-') : passed line = line :=
  if_neg fun hopt => h (head?_of_isEchoOption hopt)

/-- What echo prints is a part of the line. -/
theorem passed_sublist (line : List Char) : (passed line).Sublist line := by
  unfold passed
  split
  · exact List.nil_sublist line
  · exact List.Sublist.refl line

/-- What is not in a line is not in what echo prints of it. -/
theorem not_infix_passed {word line : List Char} (hne : word ≠ []) (h : ¬ word <:+: line) :
    ¬ word <:+: passed line := by
  unfold passed
  split
  · simpa using hne
  · exact h

/-- A line with a character that is in no option goes through. -/
theorem passed_of_mem {d : Char} {line : List Char} (hmem : d ∈ line)
    (hd : d ≠ '-' ∧ d ≠ 'n' ∧ d ≠ 'e' ∧ d ≠ 'E') : passed line = line := by
  refine if_neg fun hopt => ?_
  unfold isEchoOption at hopt
  split at hopt
  · next c cs =>
      obtain rfl | hmem := List.mem_cons.mp hmem
      · exact hd.1 rfl
      · have hc := List.all_eq_true.mp hopt d hmem
        simp [hd.2] at hc
  · cases hopt

/-- What echo prints of a line is a line. -/
theorem isLine_passed {line : List Char} (h : IsLine line) : IsLine (passed line) :=
  h.sublist (passed_sublist line)

/-- A line and its newline are captured as the line. -/
theorem capture_line {line : List Char} (h : IsLine line) : capture (line ++ ['\n']) = line := by
  have hclean : (line ++ ['\n']).filter (· ≠ Char.ofNat 0) = line ++ ['\n'] := by
    rw [List.filter_eq_self]
    intro c hc
    obtain hc | hc := List.mem_append.mp hc
    · have hne : c ≠ Char.ofNat 0 := fun heq => h.2 (heq ▸ hc)
      simpa using hne
    · rw [List.mem_singleton.mp hc]
      decide
  have hlast : line.reverse.dropWhile (· = '\n') = line.reverse := by
    cases hrev : line.reverse with
    | nil => rfl
    | cons c cs =>
        have hmem : c ∈ line := by
          rw [← List.mem_reverse, hrev]
          exact List.mem_cons_self
        have hne : c ≠ '\n' := fun heq => h.1 (heq ▸ hmem)
        simp [hne]
  rw [capture, hclean, List.reverse_append, List.reverse_singleton, List.singleton_append,
    List.dropWhile_cons_of_pos (by simp), hlast, List.reverse_reverse]

theorem capture_nil : capture [] = [] := by simp [capture]

/-- What echo prints ends in a newline, unless it is nothing. -/
theorem echo_cases (line : List Char) :
    echo line = passed line ++ ['\n'] ∨ echo line = [] ∧ passed line = [] := by
  unfold echo passed
  split_ifs <;> simp

/-- A script of sed on a line that is echoed and captured. -/
theorem capture_sed_echo {line : List Char} (h : IsLine line) {script : List Char → List Char}
    (hnil : script [] = []) (hscript : IsLine (script (passed line))) :
    capture (sed script (echo line)) = script (passed line) := by
  obtain hecho | ⟨hecho, hpassed⟩ := echo_cases line
  · rw [hecho, sed, lines_append (isLine_passed h).1]
    simpa [lines] using capture_line hscript
  · rw [hecho, hpassed, hnil]
    simp [sed, lines, capture_nil]

/-! ## runs of a character -/

variable {c : Char}

/-- Squeezing only takes characters away. -/
theorem squeeze_sublist (c : Char) (cs : List Char) : (squeeze c cs).Sublist cs := by
  fun_induction squeeze c cs with
  | case1 => exact List.Sublist.refl []
  | case2 d => exact List.Sublist.refl [d]
  | case3 d e cs _ ih => exact ih.cons d
  | case4 d e cs _ ih => exact ih.cons_cons d

/-- A text goes on as it began. -/
theorem head?_squeeze (c : Char) (cs : List Char) : (squeeze c cs).head? = cs.head? := by
  fun_induction squeeze c cs with
  | case1 => rfl
  | case2 d => rfl
  | case3 d e cs h ih => rw [ih, List.head?_cons, List.head?_cons, h.1, h.2]
  | case4 d e cs _ ih => rfl

/-- No two of the character are left side by side. -/
theorem not_infix_squeeze (c : Char) (cs : List Char) : ¬ [c, c] <:+: squeeze c cs := by
  fun_induction squeeze c cs with
  | case1 => simp
  | case2 d =>
      intro h
      have hlen := h.length_le
      simp at hlen
  | case3 d e cs _ ih => exact ih
  | case4 d e cs hne ih =>
      intro h
      obtain h | h := List.infix_cons_iff.mp h
      · have hhead := head?_squeeze c (e :: cs)
        obtain ⟨rest, hrest⟩ := h
        simp only [List.cons_append, List.nil_append, List.cons.injEq] at hrest
        rw [← hrest.2, List.head?_cons, List.head?_cons, Option.some.injEq] at hhead
        exact hne ⟨hrest.1.symm, hhead.symm⟩
      · exact ih h

/-- Without two of them in a row there is nothing to squeeze. -/
theorem squeeze_of_not_infix {cs : List Char} (h : ¬ [c, c] <:+: cs) : squeeze c cs = cs := by
  fun_induction squeeze c cs with
  | case1 => rfl
  | case2 d => rfl
  | case3 d e cs hcc ih => exact absurd ⟨[], cs, by simp [hcc.1, hcc.2]⟩ h
  | case4 d e cs _ ih =>
      rw [ih fun hdouble => h (hdouble.trans (List.suffix_cons d _).isInfix)]

/-- Only the character itself can get lost. -/
theorem mem_squeeze {d : Char} {cs : List Char} (hmem : d ∈ cs) (hne : d ≠ c) :
    d ∈ squeeze c cs := by
  fun_induction squeeze c cs with
  | case1 => exact hmem
  | case2 e => exact hmem
  | case3 e e' cs h ih =>
      obtain rfl | hmem := List.mem_cons.mp hmem
      · exact absurd h.1 hne
      · exact ih hmem
  | case4 e e' cs _ ih =>
      obtain rfl | hmem := List.mem_cons.mp hmem
      · exact List.mem_cons_self
      · exact List.mem_cons_of_mem _ (ih hmem)

/-- Another character at the end is kept. -/
theorem squeeze_concat {d : Char} (hne : d ≠ c) (cs : List Char) :
    squeeze c (cs ++ [d]) = squeeze c cs ++ [d] := by
  fun_induction squeeze c cs with
  | case1 => rfl
  | case2 e => simp [squeeze, hne]
  | case3 e e' cs h ih =>
      rw [← ih, List.cons_append, List.cons_append, squeeze, if_pos h]
  | case4 e e' cs h ih =>
      rw [List.cons_append, List.cons_append, squeeze, if_neg h, ← List.cons_append, ih,
        List.cons_append]

/-- Squeezing a line that is echoed and captured. -/
theorem capture_squeeze_echo {line : List Char} (h : IsLine line) (hc : c ≠ '\n') :
    capture (squeeze c (echo line)) = squeeze c (passed line) := by
  obtain hecho | ⟨hecho, hpassed⟩ := echo_cases line
  · rw [hecho, squeeze_concat (Ne.symm hc)]
    exact capture_line ((isLine_passed h).sublist (squeeze_sublist c _))
  · rw [hecho, hpassed, squeeze, capture_nil]

/-! ## the ends of a line -/

/-- Stripping at the start leaves an end of the text. -/
theorem isSuffix_stripStart (c : Char) (cs : List Char) : stripStart c cs <:+ cs := by
  unfold stripStart
  split
  · exact List.suffix_rfl
  · split
    · exact List.suffix_cons ..
    · exact List.suffix_rfl

/-- Without the character at the start there is nothing to strip. -/
theorem stripStart_of_head? {cs : List Char} (h : cs.head? ≠ some c) : stripStart c cs = cs := by
  unfold stripStart
  split
  · rfl
  · next d cs => simp_all

/-- Without two of the character in a row, none is left at the start. -/
theorem head?_stripStart {cs : List Char} (h : ¬ [c, c] <:+: cs) :
    (stripStart c cs).head? ≠ some c := by
  unfold stripStart
  split
  · simp
  · next d cs =>
      split
      · next hd =>
          intro hhead
          obtain ⟨rest, rfl⟩ := List.head?_eq_some_iff.mp hhead
          exact h ⟨[], rest, by simp [hd]⟩
      · next hd => simpa using hd

/-- Other characters are kept. -/
theorem mem_stripStart {d : Char} {cs : List Char} (hmem : d ∈ cs) (hne : d ≠ c) :
    d ∈ stripStart c cs := by
  unfold stripStart
  split
  · exact hmem
  · next e cs =>
      split
      · next he =>
          obtain rfl | hmem := List.mem_cons.mp hmem
          · exact absurd he hne
          · exact hmem
      · exact hmem

/-- Stripping at the end leaves a start of the text. -/
theorem isPrefix_stripEnd (c : Char) (cs : List Char) : stripEnd c cs <+: cs := by
  have h := isSuffix_stripStart c cs.reverse
  rw [← List.reverse_prefix] at h
  simpa [stripEnd] using h

theorem not_infix_reverse {cs : List Char} (h : ¬ [c, c] <:+: cs) : ¬ [c, c] <:+: cs.reverse := by
  intro hdouble
  rw [← List.reverse_infix, List.reverse_reverse] at hdouble
  exact h (by simpa using hdouble)

/-- Without two of them in a row, none is left at the end. -/
theorem getLast?_stripEnd {cs : List Char} (h : ¬ [c, c] <:+: cs) :
    (stripEnd c cs).getLast? ≠ some c := by
  rw [stripEnd, List.getLast?_reverse]
  exact head?_stripStart (not_infix_reverse h)

/-- Without the character at the end there is nothing to strip. -/
theorem stripEnd_of_getLast? {cs : List Char} (h : cs.getLast? ≠ some c) : stripEnd c cs = cs := by
  rw [stripEnd, stripStart_of_head? (by rwa [List.head?_reverse]), List.reverse_reverse]

/-- Other characters are kept. -/
theorem mem_stripEnd {d : Char} {cs : List Char} (hmem : d ∈ cs) (hne : d ≠ c) :
    d ∈ stripEnd c cs :=
  List.mem_reverse.mpr (mem_stripStart (List.mem_reverse.mpr hmem) hne)

/-- `s/^c//; s/c$//`. -/
def strip (c : Char) (cs : List Char) : List Char := stripEnd c (stripStart c cs)

/-- Stripping leaves a part of the text. -/
theorem isInfix_strip (c : Char) (cs : List Char) : strip c cs <:+: cs :=
  (isPrefix_stripEnd c _).isInfix.trans (isSuffix_stripStart c cs).isInfix

/-- Without two of the character in a row, none is left at an end. -/
theorem ends_strip {cs : List Char} (h : ¬ [c, c] <:+: cs) :
    (strip c cs).head? ≠ some c ∧ (strip c cs).getLast? ≠ some c := by
  have hstart : ¬ [c, c] <:+: stripStart c cs := fun hdouble =>
    h (hdouble.trans (isSuffix_stripStart c cs).isInfix)
  refine ⟨?_, getLast?_stripEnd hstart⟩
  have hhead := head?_stripStart h
  obtain ⟨rest, hrest⟩ := isPrefix_stripEnd c (stripStart c cs)
  rw [← hrest] at hhead
  unfold strip
  cases hend : stripEnd c (stripStart c cs) with
  | nil => simp
  | cons d ds => simpa [hend] using hhead

/-- Without the character at either end there is nothing to strip. -/
theorem strip_of_ends {cs : List Char} (hhead : cs.head? ≠ some c)
    (hlast : cs.getLast? ≠ some c) : strip c cs = cs := by
  rw [strip, stripStart_of_head? hhead, stripEnd_of_getLast? hlast]

/-- Other characters are kept. -/
theorem mem_strip {d : Char} {cs : List Char} (hmem : d ∈ cs) (hne : d ≠ c) : d ∈ strip c cs :=
  mem_stripEnd (mem_stripStart hmem hne) hne

end Shell
