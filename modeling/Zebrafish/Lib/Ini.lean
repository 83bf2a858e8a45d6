import Mathlib.Data.List.DropRight
import Mathlib.Data.List.TakeWhile

/-!
# Ini

Texts of sections with entries `key = value`, and `#` before comments.

`readLine` takes a line apart and `group` puts entries under the headers before
them.  The rules say what is read of lines that were written in the plain way
(`readLine_entry`, `group_section`): the value is `shown`, without a comment and
without the blanks around it.
-/

namespace Ini

/-! ## blanks -/

def isBlank (c : Char) : Bool := c = ' ' || ('\t' ≤ c && c ≤ '\r')

def trim (cs : List Char) : List Char := (cs.dropWhile isBlank).rdropWhile isBlank

/-- Trimming adds no characters. -/
theorem mem_of_mem_trim {c : Char} {cs : List Char} (h : c ∈ trim cs) : c ∈ cs :=
  (List.dropWhile_suffix isBlank).subset ((List.rdropWhile_prefix isBlank _).subset h)

@[simp] theorem trim_nil : trim [] = [] := by simp [trim]

@[simp] theorem trim_space (cs : List Char) : trim (' ' :: cs) = trim cs := by
  simp [trim, isBlank]

/-- What begins and ends with other characters stays as it is. -/
theorem trim_eq_self {cs : List Char} (hhead : ∀ c, cs.head? = some c → isBlank c = false)
    (hlast : ∀ c, cs.getLast? = some c → isBlank c = false) : trim cs = cs := by
  have hdrop : cs.dropWhile isBlank = cs := by
    cases cs with
    | nil => rfl
    | cons c cs => simp [hhead c rfl]
  rw [trim, hdrop, List.rdropWhile_eq_self_iff]
  intro hne
  simp [hlast _ (List.getLast?_eq_some_getLast hne)]

/-- A digit is no blank. -/
theorem isBlank_of_isDigit {c : Char} (h : c.isDigit) : isBlank c = false := by
  have hle : 48 ≤ c.toNat := by
    simp only [Char.isDigit, Bool.and_eq_true, decide_eq_true_eq] at h
    exact h.1
  have hspace : c ≠ ' ' := by
    rintro rfl
    revert hle
    decide
  have hreturn : ¬ c ≤ '\r' := by
    intro hc
    have hnat : c.toNat ≤ 13 := hc
    omega
  simp [isBlank, hspace, hreturn]

/-- A trimmed text does not start with a blank. -/
theorem head_trim {c : Char} {cs : List Char} (h : (trim cs).head? = some c) :
    isBlank c = false := by
  have hdrop : (cs.dropWhile isBlank).head? = some c := by
    obtain ⟨rest, hrest⟩ := List.rdropWhile_prefix isBlank (cs.dropWhile isBlank)
    rw [← hrest, List.head?_append]
    simpa [trim] using Or.inl h
  have hnot := List.head?_dropWhile_not isBlank cs
  rw [hdrop] at hnot
  simpa using hnot

/-- It does not end with one. -/
theorem last_trim {c : Char} {cs : List Char} (h : (trim cs).getLast? = some c) :
    isBlank c = false := by
  rw [trim] at h
  have hne : (cs.dropWhile isBlank).rdropWhile isBlank ≠ [] := by
    intro hnil
    rw [hnil] at h
    cases h
  have hnot := List.rdropWhile_last_not isBlank (cs.dropWhile isBlank) hne
  rw [List.getLast?_eq_some_getLast hne] at h
  cases h
  simpa using hnot

/-- Between two such texts nothing is trimmed. -/
theorem trim_append {a b : List Char} (ha : trim a = a) (hane : a ≠ []) (hb : trim b = b)
    (hbne : b ≠ []) (c : Char) : trim (a ++ c :: b) = a ++ c :: b := by
  refine trim_eq_self ?_ ?_
  · intro d hd
    rw [List.head?_append_of_ne_nil a hane, ← ha] at hd
    exact head_trim hd
  · intro d hd
    rw [List.getLast?_append_of_ne_nil a (by simp), List.getLast?_cons_of_ne_nil hbne, ← hb] at hd
    exact last_trim hd

/-- Trimming twice is trimming once. -/
@[simp] theorem trim_trim (cs : List Char) : trim (trim cs) = trim cs :=
  trim_eq_self (fun _ h => head_trim h) fun _ h => last_trim h

/-! ## values -/

/-- A value as it is read: without a comment, and without blanks around it. -/
def shown (value : List Char) : List Char := trim (value.takeWhile (· ≠ '#'))

/-- What is read of a value is part of it. -/
theorem mem_of_mem_shown {c : Char} {value : List Char} (h : c ∈ shown value) : c ∈ value :=
  (List.takeWhile_prefix _).subset (mem_of_mem_trim h)

/-- A comment is no part of a value. -/
theorem hash_not_mem_shown (value : List Char) : '#' ∉ shown value := by
  intro h
  have hmem := List.mem_takeWhile_imp (mem_of_mem_trim h)
  simp at hmem

/-- A value is read as it is if it has no comment and no blanks at its ends. -/
theorem shown_eq_self_iff {value : List Char} :
    shown value = value ↔ '#' ∉ value ∧ trim value = value := by
  constructor
  · intro h
    refine ⟨?_, ?_⟩
    · rw [← h]
      exact hash_not_mem_shown value
    · rw [← h, shown, trim_trim]
  · rintro ⟨hhash, htrim⟩
    have htake : value.takeWhile (· ≠ '#') = value := by
      rw [List.takeWhile_eq_self_iff]
      intro c hc
      have hne : c ≠ '#' := ne_of_mem_of_not_mem hc hhash
      simpa using hne
    rw [shown, htake, htrim]

/-- The parts of a value between separators. -/
theorem mem_splitOn {c : Char} {l w : List Char} (h : w ∈ l.splitOn c) :
    c ∉ w ∧ ∀ d ∈ w, d ∈ l := by
  induction hn : l.length using Nat.strong_induction_on generalizing l with
  | _ n ih =>
      by_cases hc : c ∈ l
      · obtain ⟨a, b, rfl, ha⟩ := List.eq_append_cons_of_mem hc
        rw [List.splitOn_append_cons_self_of_not_mem ha, List.mem_cons] at h
        rcases h with rfl | h
        · exact ⟨ha, fun d hd => List.mem_append_left _ hd⟩
        · obtain ⟨hcw, hsub⟩ := ih b.length (by simp [← hn]; omega) h rfl
          exact ⟨hcw, fun d hd => List.mem_append_right _ (List.mem_cons_of_mem c (hsub d hd))⟩
      · rw [List.splitOn_eq_singleton hc, List.mem_singleton] at h
        subst h
        exact ⟨hc, fun d hd => hd⟩

/-- Joining two lists of texts, with a separator between them. -/
theorem intercalate_append (sep : List Char) {a b : List (List Char)} (ha : a ≠ []) (hb : b ≠ []) :
    sep.intercalate (a ++ b) = sep.intercalate a ++ (sep ++ sep.intercalate b) := by
  induction a with
  | nil => exact absurd rfl ha
  | cons l a ih =>
      by_cases hnil : a = []
      · subst hnil
        rw [List.singleton_append, List.intercalate_cons_of_ne_nil hb, List.intercalate_singleton,
          List.append_assoc]
      · rw [List.cons_append, List.intercalate_cons_of_ne_nil (by simp [hnil]), ih hnil,
          List.intercalate_cons_of_ne_nil hnil]
        simp only [List.append_assoc]

/-- A list of values in one, separated by commas. -/
def items (value : List Char) : List (List Char) :=
  ((value.splitOn ',').map trim).filter (· ≠ [])

/-- The items of a list are trimmed, and have no commas. -/
theorem mem_items {value w : List Char} (h : w ∈ items value) :
    w ≠ [] ∧ trim w = w ∧ ',' ∉ w ∧ ∀ d ∈ w, d ∈ value := by
  obtain ⟨hmem, hne⟩ := List.mem_filter.mp h
  obtain ⟨x, hx, rfl⟩ := List.mem_map.mp hmem
  obtain ⟨hcomma, hsub⟩ := mem_splitOn hx
  exact ⟨by simpa using hne, trim_trim x, fun hc => hcomma (mem_of_mem_trim hc),
    fun d hd => hsub d (mem_of_mem_trim hd)⟩

/-- Items that are written are read. -/
theorem items_intercalate {ws : List (List Char)}
    (h : ∀ w ∈ ws, w ≠ [] ∧ trim w = w ∧ ',' ∉ w) : items ([','].intercalate ws) = ws := by
  by_cases hne : ws = []
  · subst hne
    decide
  rw [items, List.splitOn_intercalate ',' (fun w hw => (h w hw).2.2) hne]
  have hmap : ws.map trim = ws := by
    rw [List.map_congr_left fun w hw => (h w hw).2.1, List.map_id']
  rw [hmap, List.filter_eq_self]
  intro w hw
  simpa using (h w hw).1

/-! ## lines -/

inductive Line
  | blank
  | header (name : List Char)
  | entry (key value : List Char)
deriving DecidableEq

/-- One line; `none` if it is none of these. -/
def readLine (l : List Char) : Option Line :=
  let text := l.takeWhile (· ≠ '#')
  let key := trim (text.takeWhile (· ≠ '='))
  if key.head? = some '[' then some (.header key)
  else
    match text.dropWhile (· ≠ '=') with
    | _ :: value => some (.entry key (trim value))
    | [] => if key = [] then some .blank else none

/-- A key that can be written before a value. -/
structure IsKey (key : List Char) : Prop where
  hash : '#' ∉ key
  eq : '=' ∉ key
  head : key.head? ≠ some '['
  trim : Ini.trim (key ++ [' ']) = key

instance (key : List Char) : Decidable (IsKey key) :=
  decidable_of_iff
    ('#' ∉ key ∧ '=' ∉ key ∧ key.head? ≠ some '[' ∧ Ini.trim (key ++ [' ']) = key)
    ⟨fun h => ⟨h.1, h.2.1, h.2.2.1, h.2.2.2⟩, fun h => ⟨h.hash, h.eq, h.head, h.trim⟩⟩

/-- An entry that is written is read. -/
theorem readLine_entry {key : List Char} (h : IsKey key) (value : List Char) :
    readLine (key ++ ' ' :: '=' :: ' ' :: value) = some (.entry key (shown value)) := by
  have htext : (key ++ ' ' :: '=' :: ' ' :: value).takeWhile (· ≠ '#') =
      key ++ ' ' :: '=' :: ' ' :: value.takeWhile (· ≠ '#') := by
    rw [List.takeWhile_append_of_pos]
    · simp
    · intro c hc
      simpa using ne_of_mem_of_not_mem hc h.hash
  have hkey : ∀ c ∈ key, (decide (c ≠ '=')) = true := by
    intro c hc
    simpa using ne_of_mem_of_not_mem hc h.eq
  have hbefore : (key ++ ' ' :: '=' :: ' ' :: value.takeWhile (· ≠ '#')).takeWhile (· ≠ '=') =
      key ++ [' '] := by
    rw [List.takeWhile_append_of_pos hkey]
    simp
  have hbehind : (key ++ ' ' :: '=' :: ' ' :: value.takeWhile (· ≠ '#')).dropWhile (· ≠ '=') =
      '=' :: ' ' :: value.takeWhile (· ≠ '#') := by
    rw [List.dropWhile_append_of_pos hkey]
    simp
  simp only [readLine, htext, hbefore, hbehind, h.trim, if_neg h.head, trim_space, shown]

/-! ## sections -/

structure Section where
  name : List Char
  entries : List (List Char × List Char)

/-- Entries before any header, and the sections. -/
def group : List Line → List (List Char × List Char) × List Section
  | [] => ([], [])
  | .blank :: ls => group ls
  | .entry k v :: ls => ((k, v) :: (group ls).1, (group ls).2)
  | .header n :: ls => ([], ⟨n, (group ls).1⟩ :: (group ls).2)

/-- The sections of a text. -/
def read (ls : List (List Char)) : Option (List Section) :=
  match ls.mapM readLine with
  | some ls => if (group ls).1 = [] then some (group ls).2 else none
  | none => none

/-- The lines of a section. -/
def Section.lines (s : Section) : List Line :=
  .header s.name :: s.entries.map fun e => .entry e.1 e.2

/-- Entries in front belong to the section that is open. -/
theorem group_entries (es : List (List Char × List Char)) (ls : List Line) :
    group (es.map (fun e => .entry e.1 e.2) ++ ls) = (es ++ (group ls).1, (group ls).2) := by
  induction es with
  | nil => rfl
  | cons e es ih => simp [group, ih]

/-- Sections that are written are read, whatever blank lines are between. -/
theorem group_section (s : Section) {ls : List Line} (h : (group ls).1 = []) :
    group (s.lines ++ ls) = ([], s :: (group ls).2) := by
  rw [Section.lines, List.cons_append, group, group_entries, h, List.append_nil]

end Ini
