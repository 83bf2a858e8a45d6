import Zebrafish.Lib.Assoc

/-!
# Shell

What a POSIX shell does with a script of plain assignments.

`run` reads a script character by character.  It knows assignments, single
quotes and backslashes; at the first sign of anything else — a command word, a
character that may start an expansion, a redirection, a pattern — it gives up.
So when it returns assignments, the script performs those, in order, and
nothing is expanded or executed.

`Means rendered text` says that a word assigns a text.  Words that mean
something are put together by `assignments_script`.
-/

namespace Shell

/-- Where in a script the reader is: in the name of an assignment, in its
value, between single quotes, or after a backslash. -/
inductive Mode
  | name (read : List Char)
  | value (name read : List Char)
  | quoted (name read : List Char)
  | escaped (name read : List Char)

def isNameStart (c : Char) : Bool := c.isAlpha || c = '_'

def isNameChar (c : Char) : Bool := c.isAlphanum || c = '_'

/-- A name a variable can have. -/
def validName : List Char → Bool
  | c :: cs => isNameStart c && cs.all isNameChar
  | [] => false

/-- Characters that mean something in some unquoted position of a word. -/
def isActive (c : Char) : Bool :=
  c ∈ [' ', '\t', '|', '&', ';', '<', '>', '(', ')', '$', Char.ofNat 96, '"', '*', '?', '[', ']',
    '#', '~', '!', '{', '}', '^', '%', Char.ofNat 0]

/-- Read a script; `none` if it does anything but assign. -/
def run : Mode → List Char → Option (List (List Char × List Char))
  | .name [], [] => some []
  | .name _, [] => none
  | .name n, '=' :: cs => if validName n then run (.value n []) cs else none
  | .name [], '\n' :: cs => run (.name []) cs
  | .name n, c :: cs => if isNameChar c then run (.name (n ++ [c])) cs else none
  | .value n v, [] => some [(n, v)]
  | .value n v, '\n' :: cs => (run (.name []) cs).map fun rest => (n, v) :: rest
  | .value n v, '\'' :: cs => run (.quoted n v) cs
  | .value n v, '\\' :: cs => run (.escaped n v) cs
  | .value n v, c :: cs => if isActive c then none else run (.value n (v ++ [c])) cs
  | .quoted _ _, [] => none
  | .quoted n v, '\'' :: cs => run (.value n v) cs
  | .quoted n v, c :: cs => if c = Char.ofNat 0 then none else run (.quoted n (v ++ [c])) cs
  | .escaped _ _, [] => none
  -- a backslash before a newline joins two lines
  | .escaped n v, '\n' :: cs => run (.value n v) cs
  | .escaped n v, c :: cs => if c = Char.ofNat 0 then none else run (.value n (v ++ [c])) cs

/-- The assignments a script performs, in order, if it does nothing else. -/
def assignments (script : String) : Option (List (String × String)) :=
  (run (.name []) script.toList).map
    (List.map fun a => (String.ofList a.1, String.ofList a.2))

/-- The value a variable has after assignments in an empty environment: the
last one it was given. -/
def valueOf (as : List (String × String)) (name : String) : Option String :=
  as.reverse.lookup name

/-- Variables assigned once have what they were assigned. -/
theorem valueOf_of_mem {as : List (String × String)} (hnodup : (as.map Prod.fst).Nodup)
    {name text : String} (hmem : (name, text) ∈ as) : valueOf as name = some text := by
  rw [valueOf, Assoc.lookup_perm as.reverse_perm hnodup]
  exact Assoc.lookup_of_mem hnodup hmem

/-! ## words -/

/-- A word that assigns a text, wherever it stands. -/
def Means (rendered text : List Char) : Prop :=
  ∀ n v cs, run (.value n v) (rendered ++ cs) = run (.value n (v ++ text)) cs

/-- A character that stands for itself. -/
def isPlain (c : Char) : Bool := !isActive c && c ≠ '\n' && c ≠ '\'' && c ≠ '\\'

theorem means_nil : Means [] [] := by
  intro n v cs
  simp

/-- Two pieces of a word stand for their texts in a row. -/
theorem Means.append {r₁ t₁ r₂ t₂ : List Char} (h₁ : Means r₁ t₁) (h₂ : Means r₂ t₂) :
    Means (r₁ ++ r₂) (t₁ ++ t₂) := by
  intro n v cs
  rw [List.append_assoc, h₁, h₂, List.append_assoc]

/-- Plain characters stand for themselves. -/
theorem means_plain {cs : List Char} (h : cs.all isPlain) : Means cs cs := by
  induction cs with
  | nil => exact means_nil
  | cons c cs ih =>
      simp only [List.all_cons, Bool.and_eq_true] at h
      have hone : Means [c] [c] := by
        intro n v rest
        have hc := h.1
        simp only [isPlain, Bool.and_eq_true, Bool.not_eq_true', decide_eq_true_eq] at hc
        obtain ⟨⟨⟨hactive, hnl⟩, hquote⟩, hback⟩ := hc
        rw [List.singleton_append, run]
        · simp [hactive]
        · simpa using hnl
        · simpa using hquote
        · simpa using hback
      exact hone.append (ih h.2)

/-- Put a text between single quotes: a quote in it closes them, goes out behind
a backslash, and opens them again. -/
def singleQuoted (cs : List Char) : List Char :=
  '\'' :: (cs.flatMap fun c => if c = '\'' then ['\'', '\\', '\'', '\''] else [c]) ++ ['\'']

/-- Between single quotes each character stands for itself. -/
theorem run_quoted {cs : List Char} (hnul : Char.ofNat 0 ∉ cs) (n v rest : List Char) :
    run (.quoted n v)
        ((cs.flatMap fun c => if c = '\'' then ['\'', '\\', '\'', '\''] else [c]) ++ '\'' :: rest) =
      run (.value n (v ++ cs)) rest := by
  induction cs generalizing v with
  | nil => simp [run]
  | cons c cs ih =>
      simp only [List.mem_cons, not_or] at hnul
      rw [List.flatMap_cons, List.append_assoc]
      by_cases hc : c = '\''
      · subst hc
        have hback : ('\'' : Char) ≠ Char.ofNat 0 := by decide
        simp [run, hback, ih hnul.2]
      · rw [if_neg hc, List.singleton_append, run]
        · simp [Ne.symm hnul.1, ih hnul.2]
        · exact hc

/-- A quoted text stands for itself, if it has no NUL. -/
theorem means_singleQuoted {cs : List Char} (hnul : Char.ofNat 0 ∉ cs) :
    Means (singleQuoted cs) cs := by
  intro n v rest
  rw [singleQuoted, List.append_assoc, List.cons_append, run]
  exact run_quoted hnul n v rest

/-! ## scripts -/

/-- One assignment, as a line of a script. -/
def line (name rendered : String) : String := name ++ "=" ++ rendered ++ "\n"

/-- A name is read up to the equals sign. -/
theorem run_name {n : List Char} (hn : n.all isNameChar) (acc cs : List Char) :
    run (.name acc) (n ++ '=' :: cs) =
      if validName (acc ++ n) then run (.value (acc ++ n) []) cs else none := by
  induction n generalizing acc with
  | nil => simp [run]
  | cons c n ih =>
      simp only [List.all_cons, Bool.and_eq_true] at hn
      have heq : c ≠ '=' := by
        rintro rfl
        simp [isNameChar] at hn
      have hnl : c ≠ '\n' := by
        rintro rfl
        simp [isNameChar] at hn
      rw [List.cons_append, run]
      · simp [hn.1, ih hn.2]
      · exact heq
      · exact fun _ => hnl

/-- A valid name has characters of a name only. -/
theorem all_isNameChar_of_validName {n : List Char} (h : validName n) : n.all isNameChar := by
  cases n with
  | nil => rfl
  | cons c n =>
      simp only [validName, isNameStart, Bool.and_eq_true, Bool.or_eq_true] at h
      simp only [List.all_cons, isNameChar, Char.isAlphanum, Bool.and_eq_true, Bool.or_eq_true]
      exact ⟨h.1.imp_left Or.inl, h.2⟩

/-- A line with a proper name performs its assignment. -/
theorem run_line {name rendered : String} {text : List Char} (hname : validName name.toList)
    (hmeans : Means rendered.toList text) (cs : List Char) :
    run (.name []) ((line name rendered).toList ++ cs) =
      (run (.name []) cs).map fun rest => (name.toList, text) :: rest := by
  have hline : (line name rendered).toList ++ cs =
      name.toList ++ '=' :: (rendered.toList ++ '\n' :: cs) := by
    simp [line, String.toList_append]
  rw [hline, run_name (all_isNameChar_of_validName hname), List.nil_append, if_pos hname, hmeans]
  simp [run]

/-- A script of such lines performs their assignments, and nothing else. -/
theorem assignments_script {α : Type} (lines : List α) (name rendered : α → String)
    (text : α → String)
    (h : ∀ l ∈ lines, validName (name l).toList ∧ Means (rendered l).toList (text l).toList) :
    assignments (String.join (lines.map fun l => line (name l) (rendered l))) =
      some (lines.map fun l => (name l, text l)) := by
  have hrun : run (.name []) (String.join (lines.map fun l => line (name l) (rendered l))).toList =
      some (lines.map fun l => ((name l).toList, (text l).toList)) := by
    induction lines with
    | nil => rfl
    | cons l lines ih =>
        obtain ⟨hname, hmeans⟩ := h l List.mem_cons_self
        have hrest := ih fun x hx => h x (List.mem_cons_of_mem l hx)
        have hjoin : (String.join ((l :: lines).map fun l => line (name l) (rendered l))).toList =
            (line (name l) (rendered l)).toList ++
              (String.join (lines.map fun l => line (name l) (rendered l))).toList := by
          simp [String.join_cons]
        rw [hjoin, run_line hname hmeans, hrest]
        rfl
  rw [assignments, hrun]
  simp

end Shell
