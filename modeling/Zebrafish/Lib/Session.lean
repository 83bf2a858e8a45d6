import Zebrafish.Lib.Number
import Zebrafish.Lib.Shell
import Zebrafish.Lib.Lines

/-!
# Session

A shell that evaluates what commands print, `eval "$(…)"`.

Its variables are the assignments it has done so far, so a variable keeps its
value until it is assigned again (`valueOf_append`).  `assignments_capture` is
`assignments_script` for an output that went through `$(…)`: the newlines at
the end are gone, and every NUL.
-/

namespace Shell

/-- A text as `$(…)` has it, without NULs. -/
def clean (cs : List Char) : List Char := cs.filter (· ≠ Char.ofNat 0)

def dropNul (s : String) : String := String.ofList (clean s.toList)

/-- The assignments of a shell, oldest first. -/
abbrev Env : Type := List (String × String)

/-- `eval "$(…)"`; `none` if the output does anything but assign. -/
def evalOutput (vars : Env) (output : String) : Option Env :=
  (assignments (String.ofList (capture output.toList))).map (vars ++ ·)

/-- `${!v}`, where `v` holds a name. -/
def deref (vars : Env) (name : String) : String := (valueOf vars name).getD ""

/-- A text, or another one for nothing and for the empty text. -/
def orDefault (default : String) : Option String → String
  | some s => if s = "" then default else s
  | none => default

/-- `${!v:-…}`. -/
def derefOr (vars : Env) (name default : String) : String :=
  orDefault default (valueOf vars name)

/-- A decimal number, in an arithmetic expression. -/
def number (text : String) : Nat := (Rust.parseDigits text.toList).getD 0

/-- A number is read back from its text. -/
@[simp] theorem number_repr (n : Nat) : number n.repr = n := by
  rw [number, Rust.parseDigits_repr, Option.getD_some]

/-- New assignments go before old ones. -/
theorem valueOf_append (vars news : Env) (name : String) :
    valueOf (vars ++ news) name = (valueOf news name).or (valueOf vars name) := by
  simp [valueOf, List.lookup_append]

/-- A variable has no value just if it is not set. -/
theorem valueOf_eq_none_iff {vars : Env} {name : String} :
    valueOf vars name = none ↔ name ∉ vars.map Prod.fst := by
  rw [valueOf, Assoc.lookup_eq_none_iff, List.map_reverse, List.mem_reverse]

/-! ## captured scripts -/

/-- NULs are dropped piece by piece. -/
theorem clean_append (a b : List Char) : clean (a ++ b) = clean a ++ clean b := by
  simp [clean]

theorem clean_cons {c : Char} (h : c ≠ Char.ofNat 0) (cs : List Char) :
    clean (c :: cs) = c :: clean cs := by
  simp [clean, h]

/-- There is nothing to drop without a NUL. -/
theorem clean_of_not_mem {cs : List Char} (h : Char.ofNat 0 ∉ cs) : clean cs = cs := by
  rw [clean, List.filter_eq_self]
  intro c hc
  simp only [ne_eq, decide_eq_true_eq]
  rintro rfl
  exact h hc

/-- Nor in a string without one. -/
theorem dropNul_of_not_mem {s : String} (h : Char.ofNat 0 ∉ s.toList) : dropNul s = s := by
  rw [dropNul, clean_of_not_mem h, String.ofList_toList]

/-- Strings are cleaned as lists of characters are. -/
theorem toList_dropNul (s : String) : (dropNul s).toList = clean s.toList := by
  simp [dropNul]

/-- A name has no NUL. -/
theorem nul_not_mem_name {n : List Char} (h : n.all isNameChar) : Char.ofNat 0 ∉ n := by
  intro hmem
  have hc := List.all_eq_true.mp h _ hmem
  revert hc
  decide

/-- A word that assigns a text in the output of a command, also in its last
line. -/
structure Assigns (rendered text : String) : Prop where
  means : Means (clean rendered.toList) (clean text.toList)
  last : (clean rendered.toList).getLast? ≠ some '\n'

/-- An assignment without its NULs. -/
theorem clean_line (name rendered : String) (h : name.toList.all isNameChar) :
    clean (line name rendered).toList =
      name.toList ++ '=' :: (clean rendered.toList ++ ['\n']) := by
  have hname := clean_of_not_mem (nul_not_mem_name h)
  have hnl : clean ['\n'] = ['\n'] := by decide
  have heq : ('=' : Char) ≠ Char.ofNat 0 := by decide
  simp [line, String.toList_append, clean_append, hname, hnl, clean_cons heq]

/-- Only the newline of the last line is dropped. -/
theorem dropNewlines (cs rest : List Char) (h : rest.getLast? ≠ some '\n') :
    ((cs ++ '=' :: (rest ++ ['\n'])).reverse.dropWhile (· = '\n')).reverse =
      cs ++ '=' :: rest := by
  have hlast : (cs ++ '=' :: rest).getLast? ≠ some '\n' := by
    rw [List.getLast?_append, List.getLast?_cons]
    cases hr : rest.getLast? with
    | none => simp
    | some c => simpa [hr] using h
  have hhead : (cs ++ '=' :: rest).reverse.head? ≠ some '\n' := by
    rwa [List.head?_reverse]
  have hcons : (cs ++ '=' :: (rest ++ ['\n'])).reverse = '\n' :: (cs ++ '=' :: rest).reverse := by
    simp
  rw [hcons, List.dropWhile_cons_of_pos (by simp)]
  cases hrev : (cs ++ '=' :: rest).reverse with
  | nil => simp at hrev
  | cons c more =>
      rw [hrev] at hhead
      have hc : c ≠ '\n' := by simpa using hhead
      rw [List.dropWhile_cons_of_neg (by simpa using hc), ← hrev, List.reverse_reverse]

section

variable {α : Type} {name rendered text : α → String}

/-- Assignments in a row are read one by one. -/
theorem run_clean_lines {ls : List α}
    (h : ∀ l ∈ ls, validName (name l).toList ∧ Assigns (rendered l) (text l)) (cs : List Char) :
    run (.name []) (clean (String.join (ls.map fun l => line (name l) (rendered l))).toList ++ cs) =
      (run (.name []) cs).map fun rest =>
        ls.map (fun l => ((name l).toList, clean (text l).toList)) ++ rest := by
  induction ls with
  | nil => simp [clean]
  | cons l ls ih =>
      obtain ⟨⟨hname, hassigns⟩, hrest⟩ := List.forall_mem_cons.mp h
      have hnames := all_isNameChar_of_validName hname
      rw [List.map_cons, String.join_cons, String.toList_append, clean_append,
        clean_line _ _ hnames]
      simp only [List.append_assoc, List.cons_append, List.nil_append]
      rw [run_name hnames, List.nil_append, if_pos hname, hassigns.means, run, ih hrest,
        Option.map_map]
      simp [Function.comp_def]

/-- Lines that assign do so through `$(…)`, short of their NULs. -/
theorem assignments_capture {ls : List α}
    (h : ∀ l ∈ ls, validName (name l).toList ∧ Assigns (rendered l) (text l)) :
    assignments (String.ofList
        (capture (String.join (ls.map fun l => line (name l) (rendered l))).toList)) =
      some (ls.map fun l => (name l, dropNul (text l))) := by
  have hrun : run (.name [])
      (capture (String.join (ls.map fun l => line (name l) (rendered l))).toList) =
        some (ls.map fun l => ((name l).toList, clean (text l).toList)) := by
    rw [capture, ← clean]
    cases ls using List.reverseRecOn with
    | nil => rfl
    | append_singleton ls l =>
        have hinit := run_clean_lines fun x hx => h x (List.mem_append_left [l] hx)
        obtain ⟨hname, hassigns⟩ := h l (by simp)
        have hnames := all_isNameChar_of_validName hname
        have htext : clean (String.join
            ((ls ++ [l]).map fun l => line (name l) (rendered l))).toList =
              (clean (String.join (ls.map fun l => line (name l) (rendered l))).toList ++
                (name l).toList) ++ '=' :: (clean (rendered l).toList ++ ['\n']) := by
          simp [String.join_append, String.join_cons, clean_append, clean_line _ _ hnames]
        rw [htext, dropNewlines _ _ hassigns.last, List.append_assoc, hinit, run_name hnames,
          List.nil_append, if_pos hname]
        have hmeans := hassigns.means (name l).toList [] []
        simp only [List.append_nil, List.nil_append] at hmeans
        rw [hmeans]
        simp [run]
  rw [assignments, String.toList_ofList, hrun]
  simp [dropNul, Function.comp_def]

end

end Shell
