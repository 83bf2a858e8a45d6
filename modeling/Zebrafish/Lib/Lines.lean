import Mathlib.Data.List.Induction

/-!
# Lines

Texts as lines, the way the tools of a shell read and write them.

`lines` is how `awk`, `grep`, `mapfile` and `read` take a text apart: every
line is ended by a newline, and what follows the last newline is a line too,
unless it is empty.  `unlines` is how `printf '%s\n'` puts one together, given
something to print.  `capture` is what `$(…)` makes of an output, and `words`
how it is split where it stands unquoted.  `utf8` is a text as it stands in a
file.
-/

namespace Shell

def lines : List Char → List (List Char)
  | [] => []
  | c :: cs =>
      if c = '\n' then [] :: lines cs
      else
        match lines cs with
        | [] => [[c]]
        | l :: ls => (c :: l) :: ls

def unlines (ls : List (List Char)) : List Char := ls.flatMap (· ++ ['\n'])

@[simp] theorem unlines_nil : unlines [] = [] := by simp [unlines]

@[simp] theorem unlines_cons (l : List Char) (ls : List (List Char)) :
    unlines (l :: ls) = l ++ '\n' :: unlines ls := by simp [unlines]

/-- A newline ends a line. -/
theorem lines_append {l : List Char} (h : '\n' ∉ l) (cs : List Char) :
    lines (l ++ '\n' :: cs) = l :: lines cs := by
  induction l with
  | nil => simp [lines]
  | cons c l ih =>
      simp only [List.mem_cons, not_or] at h
      simp [lines, Ne.symm h.1, ih h.2]

/-- Lines that are written are read back. -/
theorem lines_unlines {ls : List (List Char)} (h : ∀ l ∈ ls, '\n' ∉ l) :
    lines (unlines ls) = ls := by
  induction ls with
  | nil => simp [lines]
  | cons l ls ih =>
      simp only [List.mem_cons, forall_eq_or_imp] at h
      simp [lines_append h.1, ih h.2]

/-- Texts part at the first separator. -/
theorem append_cons_inj {c : Char} {a a' b b' : List Char} (ha : c ∉ a) (ha' : c ∉ a')
    (h : a ++ c :: b = a' ++ c :: b') : a = a' ∧ b = b' := by
  induction a generalizing a' with
  | nil =>
      cases a' with
      | nil => simpa using h
      | cons y a' =>
          simp only [List.mem_cons, not_or, List.nil_append, List.cons_append,
            List.cons.injEq] at ha' h
          exact absurd h.1 ha'.1
  | cons x a ih =>
      simp only [List.mem_cons, not_or] at ha
      cases a' with
      | nil =>
          simp only [List.nil_append, List.cons_append, List.cons.injEq] at h
          exact absurd h.1.symm ha.1
      | cons y a' =>
          simp only [List.mem_cons, not_or, List.cons_append, List.cons.injEq] at ha' h
          obtain ⟨rfl, rfl⟩ := ih ha.2 ha'.2 h.2
          simp [h.1]

/-! ## outputs -/

/-- `$(…)`: NULs are dropped, and the newlines at the end. -/
def capture (cs : List Char) : List Char :=
  ((cs.filter (· ≠ Char.ofNat 0)).reverse.dropWhile (· = '\n')).reverse

/-- What separates words, as `IFS` has it. -/
def isIfs (c : Char) : Bool := c = ' ' || c = '\t' || c = '\n'

/-- The words of an unquoted text. -/
def words (cs : List Char) : List (List Char) := (cs.splitOnP isIfs).filter (· ≠ [])

@[simp] theorem words_nil : words [] = [] := by simp [words]

/-- A blank ends a word. -/
theorem words_append {c : Char} (hc : isIfs c) (a b : List Char) :
    words (a ++ c :: b) = words a ++ words b := by
  simp [words, List.splitOnP_append_cons a b hc]

/-- A text without blanks is one word. -/
theorem words_of_ne_nil {w : List Char} (hne : w ≠ []) (h : ∀ c ∈ w, isIfs c = false) :
    words w = [w] := by
  simp [words, List.splitOnP_eq_singleton h, hne]

/-- Words joined by blanks are taken apart again. -/
theorem filter_splitOnP_intercalate {p : Char → Bool} {c : Char} (hc : p c)
    {ws : List (List Char)} (h : ∀ w ∈ ws, ∀ d ∈ w, p d = false) :
    (([c].intercalate ws).splitOnP p).filter (· ≠ []) = ws.filter (· ≠ []) := by
  induction ws with
  | nil => simp
  | cons w ws ih =>
      obtain ⟨hw, hws⟩ := List.forall_mem_cons.mp h
      by_cases hnil : ws = []
      · simp [hnil, List.splitOnP_eq_singleton hw]
      · rw [List.intercalate_cons_of_ne_nil hnil, List.append_assoc, List.singleton_append,
          List.splitOnP_append_cons_of_forall_mem hw c hc, List.filter_cons, List.filter_cons,
          ih hws]

/-- Newlines at the end make no words. -/
theorem words_dropWhile (cs : List Char) :
    words (cs.reverse.dropWhile (· = '\n')).reverse = words cs := by
  induction cs using List.reverseRecOn with
  | nil => simp
  | append_singleton cs c ih =>
      by_cases hc : c = '\n'
      · subst hc
        have hlast := words_append (c := '\n') (by decide) cs []
        simpa [hlast] using ih
      · simp [hc]

/-- There is no NUL to drop where no line has one. -/
theorem filter_unlines {ls : List (List Char)} (h : ∀ l ∈ ls, Char.ofNat 0 ∉ l) :
    (unlines ls).filter (· ≠ Char.ofNat 0) = unlines ls := by
  rw [List.filter_eq_self]
  intro c hc
  simp only [unlines, List.mem_flatMap, List.mem_append, List.mem_singleton] at hc
  obtain ⟨l, hl, hc | rfl⟩ := hc
  · simpa using fun heq : c = Char.ofNat 0 => h l hl (heq ▸ hc)
  · decide

/-- Lines are texts with newlines between them, and one at the end. -/
theorem unlines_eq_intercalate {ls : List (List Char)} (hne : ls ≠ []) :
    unlines ls = ['\n'].intercalate ls ++ ['\n'] := by
  induction ls with
  | nil => exact absurd rfl hne
  | cons l ls ih =>
      by_cases hnil : ls = []
      · simp [hnil]
      · rw [unlines_cons, ih hnil, List.intercalate_cons_of_ne_nil hnil]
        simp

/-- Joining adds the separator only. -/
theorem not_mem_intercalate {c d : Char} {ws : List (List Char)} (h : ∀ w ∈ ws, d ∉ w)
    (hne : d ≠ c) : d ∉ [c].intercalate ws := by
  induction ws with
  | nil => simp
  | cons w ws ih =>
      obtain ⟨hw, hws⟩ := List.forall_mem_cons.mp h
      by_cases hnil : ws = []
      · simpa [hnil] using hw
      · rw [List.intercalate_cons_of_ne_nil hnil]
        simp [hw, hne, ih hws]

/-- A separator stands between any two. -/
theorem count_intercalate {c : Char} {ws : List (List Char)} (h : ∀ w ∈ ws, c ∉ w) :
    ([c].intercalate ws).count c = ws.length - 1 := by
  induction ws with
  | nil => simp
  | cons w ws ih =>
      obtain ⟨hw, hws⟩ := List.forall_mem_cons.mp h
      by_cases hnil : ws = []
      · simpa [hnil] using List.count_eq_zero.mpr hw
      · have hlen := List.length_pos_iff.mpr hnil
        rw [List.intercalate_cons_of_ne_nil hnil, List.count_append, List.count_append, ih hws,
          List.count_eq_zero.mpr hw, List.count_singleton_self, List.length_cons]
        omega

/-- The last character of lines belongs to one of them. -/
theorem getLast?_intercalate {ls : List (List Char)} (hne : ls ≠ []) (h : ∀ l ∈ ls, l ≠ []) :
    ∃ l ∈ ls, (['\n'].intercalate ls).getLast? = l.getLast? := by
  induction ls with
  | nil => exact absurd rfl hne
  | cons l ls ih =>
      obtain ⟨-, hls⟩ := List.forall_mem_cons.mp h
      by_cases hnil : ls = []
      · exact ⟨l, by simp, by simp [hnil]⟩
      · obtain ⟨l', hl', heq⟩ := ih hnil hls
        obtain ⟨c, hc⟩ := Option.ne_none_iff_exists'.mp
          fun hnone => hls l' hl' (List.getLast?_eq_none_iff.mp hnone)
        refine ⟨l', List.mem_cons_of_mem l hl', ?_⟩
        rw [List.intercalate_cons_of_ne_nil hnil, List.getLast?_append, heq, hc]
        rfl

/-- Lines are ended by newlines; a capture has them only between the lines. -/
theorem capture_unlines {ls : List (List Char)}
    (h : ∀ l ∈ ls, l ≠ [] ∧ '\n' ∉ l ∧ Char.ofNat 0 ∉ l) :
    capture (unlines ls) = ['\n'].intercalate ls := by
  by_cases hnil : ls = []
  · simp [hnil, capture]
  obtain ⟨l, hl, hlast⟩ := getLast?_intercalate hnil fun l hl => (h l hl).1
  rw [capture, filter_unlines fun l hl => (h l hl).2.2, unlines_eq_intercalate hnil,
    List.reverse_append, List.reverse_singleton, List.singleton_append,
    List.dropWhile_cons_of_pos (by simp)]
  rw [← List.head?_reverse] at hlast
  cases hrev : (['\n'].intercalate ls).reverse with
  | nil => simpa using (List.reverse_eq_nil_iff.mp hrev).symm
  | cons c cs =>
      rw [hrev, List.head?_cons] at hlast
      have hc : c ≠ '\n' := fun heq =>
        (h l hl).2.1 (heq ▸ List.mem_of_getLast? hlast.symm)
      rw [List.dropWhile_cons_of_neg (by simpa using hc), ← hrev, List.reverse_reverse]

/-- The words of an output are those of its lines. -/
theorem words_capture_lines {ls : List (List Char)} (h : ∀ l ∈ ls, Char.ofNat 0 ∉ l) :
    words (capture (unlines ls)) = ls.flatMap words := by
  rw [capture, filter_unlines h, words_dropWhile]
  clear h
  induction ls with
  | nil => simp
  | cons l ls ih => rw [unlines_cons, words_append (by decide), ih, List.flatMap_cons]

/-- Words on lines of their own are read back. -/
theorem words_capture_unlines {ws : List (List Char)}
    (h : ∀ w ∈ ws, w ≠ [] ∧ ∀ c ∈ w, isIfs c = false ∧ c ≠ Char.ofNat 0) :
    words (capture (unlines ws)) = ws := by
  rw [words_capture_lines fun w hw hnul => ((h w hw).2 _ hnul).2 rfl]
  induction ws with
  | nil => rfl
  | cons w ws ih =>
      obtain ⟨hw, hws⟩ := List.forall_mem_cons.mp h
      rw [List.flatMap_cons, words_of_ne_nil hw.1 fun c hc => (hw.2 c hc).1, ih hws,
        List.singleton_append]

/-! ## counting lines -/

/-- How often a word stands right behind a newline, or a NUL, which `grep`
takes for one. -/
def behindNewline (word : List Char) : List Char → Nat
  | [] => 0
  | c :: cs =>
      (if (c = '\n' ∨ c = Char.ofNat 0) ∧ word.isPrefixOf cs then 1 else 0) + behindNewline word cs

/-- `grep -c '^…'`: the lines that begin with a word. -/
def grepCount (word text : List Char) : Nat :=
  (if word.isPrefixOf text then 1 else 0) + behindNewline word text

/-- A word is found within the first line or not at all. -/
theorem isPrefixOf_append {c : Char} {word : List Char} (h : c ∉ word) (a b : List Char) :
    word.isPrefixOf (a ++ c :: b) = word.isPrefixOf a := by
  induction word generalizing a with
  | nil => simp
  | cons d word ih =>
      simp only [List.mem_cons, not_or] at h
      cases a with
      | nil => simp [List.isPrefixOf, Ne.symm h.1]
      | cons e a => simp [List.isPrefixOf, ih h.2]

/-- The lines that have a word, counted from one newline to the next. -/
theorem grepCount_append {word : List Char} (h : '\n' ∉ word) (a b : List Char) :
    grepCount word (a ++ '\n' :: b) = grepCount word a + grepCount word b := by
  have hbehind : ∀ a, behindNewline word (a ++ '\n' :: b) =
      behindNewline word a + grepCount word b := by
    intro a
    induction a with
    | nil => simp [behindNewline, grepCount]
    | cons c a ih => rw [List.cons_append, behindNewline, behindNewline, ih, isPrefixOf_append h,
        Nat.add_assoc]
  rw [grepCount, hbehind, isPrefixOf_append h, grepCount, grepCount]
  omega

/-- Within a line nothing is counted. -/
theorem behindNewline_append {a : List Char} (h : ∀ c ∈ a, c ≠ '\n' ∧ c ≠ Char.ofNat 0)
    (word b : List Char) : behindNewline word (a ++ b) = behindNewline word b := by
  induction a with
  | nil => rfl
  | cons c a ih =>
      obtain ⟨hc, hrest⟩ := List.forall_mem_cons.mp h
      rw [List.cons_append, behindNewline, ih hrest]
      simp [hc.1, hc.2]

/-! ## bytes -/

/-- The bytes of a text in a file. -/
def utf8 (cs : List Char) : List UInt8 := cs.flatMap String.utf8EncodeChar

@[simp] theorem utf8_nil : utf8 [] = [] := rfl

/-- The bytes of a text are those of its parts. -/
@[simp] theorem utf8_append (a b : List Char) : utf8 (a ++ b) = utf8 a ++ utf8 b :=
  List.flatMap_append

/-- The bytes say what the text is. -/
theorem utf8_injective : Function.Injective utf8 := by
  intro a b h
  have hbytes : (String.ofList a).toByteArray = (String.ofList b).toByteArray := by
    rw [String.toByteArray_ofList, String.toByteArray_ofList]
    exact congrArg List.toByteArray h
  simpa using congrArg String.toList (String.toByteArray_inj.mp hbytes)

end Shell
