import Zebrafish.ConfigTool.Path
import Zebrafish.Lib.Lines

/-!
# Zebrafish.ConfigTool.PathGrammar

The grammar of dotted key paths: `KeyPath.parse` accepts exactly the texts that
`Spells` some segments, and these are the segments it returns.

The loop holds back what it collected since the last separator, so it is read as
the text from there on (`parseLoop_eq_some_iff`).
-/

namespace Zebrafish.ConfigTool

open Rust

/-- Where a run of field characters ends. -/
def Stops (cs : List Char) : Prop := ∀ c ∈ cs.head?, isFieldChar c = false

/-- A text made of dots, maximal runs of field characters and bracketed decimal
numbers that fit into a `usize`, and the segments it lists. -/
@[mk_iff] inductive Spells : List Char → List Segment → Prop
  | nil : Spells [] []
  | dot {cs : List Char} {segs : List Segment} (rest : Spells cs segs) : Spells ('.' :: cs) segs
  | field {run cs : List Char} {segs : List Segment} (nonempty : run ≠ [])
      (chars : run.all isFieldChar) (maximal : Stops cs) (rest : Spells cs segs) :
      Spells (run ++ cs) (.field (String.ofList run) :: segs)
  | index {digits cs : List Char} {segs : List Segment} (nonempty : digits ≠ [])
      (decimal : digits.all Char.isDigit) (fits : Nat.ofDigitChars 10 digits 0 < 2 ^ 64)
      (rest : Spells cs segs) :
      Spells ('[' :: (digits ++ ']' :: cs)) (.index (Nat.ofDigitChars 10 digits 0) :: segs)

/-! ## what a text begins with -/

/-- The first character of a run is one of a field. -/
theorem isFieldChar_head {run cs : List Char} {c : Char} {rest : List Char} (hne : run ≠ [])
    (hrun : run.all isFieldChar) (h : c :: rest = run ++ cs) : isFieldChar c := by
  cases run with
  | nil => exact absurd rfl hne
  | cons d run =>
      simp only [List.cons_append, List.cons.injEq, List.all_cons, Bool.and_eq_true] at h hrun
      rw [h.1]
      exact hrun.1

@[simp] theorem spells_nil_iff {segs : List Segment} : Spells [] segs ↔ segs = [] := by
  rw [spells_iff]
  simp

/-- Behind a dot the text is read on. -/
@[simp] theorem spells_dot_iff {cs : List Char} {segs : List Segment} :
    Spells ('.' :: cs) segs ↔ Spells cs segs := by
  constructor
  · intro h
    rw [spells_iff] at h
    simp only [List.cons_ne_nil, false_and, List.cons.injEq, true_and, Char.reduceEq, false_or,
      and_false, exists_false, or_false] at h
    obtain ⟨_, h, rfl⟩ | ⟨run, rest, _, hne, hrun, _, _, heq, _⟩ := h
    · exact h
    · exact absurd (isFieldChar_head hne hrun heq) (by decide)
  · exact Spells.dot

/-- A bracket that opens is closed behind a number. -/
theorem spells_open_iff {cs : List Char} {segs : List Segment} :
    Spells ('[' :: cs) segs ↔
      ∃ digits rest segs', cs = digits ++ ']' :: rest ∧ digits ≠ [] ∧ digits.all Char.isDigit ∧
        Nat.ofDigitChars 10 digits 0 < 2 ^ 64 ∧
        segs = .index (Nat.ofDigitChars 10 digits 0) :: segs' ∧ Spells rest segs' := by
  constructor
  · intro h
    rw [spells_iff] at h
    simp only [List.cons_ne_nil, false_and, and_false, List.cons.injEq, Char.reduceEq, false_or,
      exists_false, true_and] at h
    obtain ⟨run, rest, _, hne, hrun, _, _, heq, _⟩ |
      ⟨ds, rest, segs', hne, hds, hfit, h, rfl, rfl⟩ := h
    · exact absurd (isFieldChar_head hne hrun heq) (by decide)
    · exact ⟨ds, rest, segs', rfl, hne, hds, hfit, rfl, h⟩
  · rintro ⟨digits, rest, segs', rfl, hne, hdigits, hfits, rfl, h⟩
    exact h.index hne hdigits hfits

/-- No text begins with a bracket that closes. -/
@[simp] theorem not_spells_close {cs : List Char} {segs : List Segment} :
    ¬ Spells (']' :: cs) segs := by
  intro h
  rw [spells_iff] at h
  simp only [List.cons_ne_nil, false_and, List.cons.injEq, Char.reduceEq, false_or,
    and_false, exists_false, or_false] at h
  obtain ⟨run, rest, _, hne, hrun, _, _, heq, _⟩ := h
  exact absurd (isFieldChar_head hne hrun heq) (by decide)

/-- A run ends at the first character of another kind, so it is read in one
way. -/
theorem run_unique {p : Char → Bool} {run run' cs cs' : List Char} (hrun : run.all p)
    (hrun' : run'.all p) (hcs : ∀ c ∈ cs.head?, p c = false) (hcs' : ∀ c ∈ cs'.head?, p c = false)
    (h : run ++ cs = run' ++ cs') : run = run' ∧ cs = cs' := by
  induction run generalizing run' with
  | nil =>
      cases run' with
      | nil => exact ⟨rfl, h⟩
      | cons c run' =>
          have hstop := hcs c (by simp [show cs = c :: (run' ++ cs') from h])
          simp [hstop] at hrun'
  | cons c run ih =>
      cases run' with
      | nil =>
          have hstop := hcs' c (by simp [← show c :: (run ++ cs) = cs' from h])
          simp [hstop] at hrun
      | cons d run' =>
          simp only [List.cons_append, List.cons.injEq, List.all_cons, Bool.and_eq_true]
            at h hrun hrun'
          obtain ⟨rfl, rfl⟩ := ih hrun.2 hrun'.2 h.2
          simp [h.1]

/-- A run of field characters is one field, which `pushField` pushes. -/
theorem spells_run_iff {run : List Char} (hrun : run.all isFieldChar) (cs : List Char)
    (hstop : Stops cs) {segs : List Segment} :
    Spells (run ++ cs) segs ↔ ∃ segs', segs = pushField [] run ++ segs' ∧ Spells cs segs' := by
  by_cases hne : run = []
  · subst hne
    simp [pushField]
  · have hpush : pushField [] run = [.field (String.ofList run)] := by simp [pushField, hne]
    simp only [hpush, List.singleton_append]
    constructor
    · intro h
      rw [spells_iff] at h
      obtain ⟨hnil, _⟩ | ⟨rest, _, heq⟩ | ⟨run', rest, segs', _, hrun', hmax, h, heq, rfl⟩ |
        ⟨ds, rest, _, _, _, _, _, heq, _⟩ := h
      · exact absurd (List.append_eq_nil_iff.mp hnil).1 hne
      · exact absurd (isFieldChar_head hne hrun heq.symm) (by decide)
      · obtain ⟨rfl, rfl⟩ := run_unique hrun hrun' hstop hmax heq
        exact ⟨segs', rfl, h⟩
      · exact absurd (isFieldChar_head hne hrun heq.symm) (by decide)
    · rintro ⟨segs', rfl, h⟩
      exact h.field hne hrun hstop

/-! ## the loop -/

/-- Digits are read as their number, if it has 64 bits. -/
theorem parseUsize_digits {ds : List Char} (h : ds.all Char.isDigit) {n : Nat} :
    parseUsize ds = some n ↔
      ds ≠ [] ∧ n = Nat.ofDigitChars 10 ds 0 ∧ Nat.ofDigitChars 10 ds 0 < 2 ^ 64 := by
  unfold parseUsize
  split
  · simp at h
  · by_cases hne : ds = []
    · simp [parseDigits, hne]
    · simp only [parseDigits, ne_eq, hne, not_false_eq_true, h, and_self, if_true,
        Option.bind_some, Option.ite_none_right_eq_some, Option.some.injEq, true_and]
      rw [and_comm, eq_comm]

/-- A run of digits behind a bracket is an index if a bracket closes it. -/
theorem spells_index_iff {ds : List Char} (hds : ds.all Char.isDigit) (cs : List Char)
    (hstop : ∀ c ∈ cs.head?, c.isDigit = false) {segs : List Segment} :
    Spells ('[' :: (ds ++ cs)) segs ↔
      ∃ n rest segs', cs = ']' :: rest ∧ parseUsize ds = some n ∧ segs = .index n :: segs' ∧
        Spells rest segs' := by
  rw [spells_open_iff]
  constructor
  · rintro ⟨digits, rest, segs', heq, hne, hdigits, hfits, rfl, h⟩
    obtain ⟨rfl, rfl⟩ := run_unique hds hdigits hstop (by simp) heq
    exact ⟨_, rest, segs', rfl, (parseUsize_digits hds).mpr ⟨hne, rfl, hfits⟩, rfl, h⟩
  · rintro ⟨n, rest, segs', rfl, hn, rfl, h⟩
    obtain ⟨hne, rfl, hfits⟩ := (parseUsize_digits hds).mp hn
    exact ⟨ds, rest, segs', rfl, hne, hds, hfits, rfl, h⟩

/-- A field that was gathered goes behind the segments. -/
theorem pushField_eq (segments : List Segment) (current : List Char) :
    pushField segments current = segments ++ pushField [] current := by
  unfold pushField
  split <;> simp

/-- What the loop has read of the text without a segment for it yet. -/
def held (current : List Char) (inIndex : Bool) : List Char :=
  if inIndex then '[' :: current else current

/-- From any state the loop returns the segments so far, and those of what it
holds back and what is left. -/
theorem parseLoop_eq_some_iff {cs : List Char} {segments out : List Segment}
    {current : List Char} {inIndex : Bool}
    (hcur : current.all (if inIndex then Char.isDigit else isFieldChar)) :
    parseLoop cs segments current inIndex = some out ↔
      ∃ segs, out = segments ++ segs ∧ Spells (held current inIndex ++ cs) segs := by
  induction cs generalizing segments current inIndex with
  | nil =>
      rw [parseLoop]
      cases inIndex with
      | true =>
          simp only [held, if_true, List.cons_append, spells_index_iff hcur [] (by simp)]
          simp
      | false =>
          simp only [held, Bool.false_eq_true, if_false, spells_run_iff hcur [] (by simp [Stops])]
          rw [pushField_eq]
          simp [eq_comm]
  | cons c cs ih =>
      rw [parseLoop]
      cases inIndex with
      | true =>
          simp only [if_true, held, List.cons_append]
          by_cases hdigit : c.isDigit
          · have hsep : c ≠ '.' ∧ c ≠ '[' ∧ c ≠ ']' := by
              refine ⟨?_, ?_, ?_⟩ <;> (rintro rfl; revert hdigit; decide)
            rw [if_neg hsep.1, if_neg hsep.2.1, if_neg hsep.2.2, if_pos hdigit,
              ih (by simpa [hdigit] using hcur)]
            simp [held]
          · rw [if_neg hdigit]
            simp only [spells_index_iff hcur (c :: cs) (by simpa using hdigit)]
            by_cases hclose : c = ']'
            · subst hclose
              simp only [Char.reduceEq, if_false, if_true]
              cases hn : parseUsize current with
              | none => simp
              | some n =>
                  have hnext : parseLoop cs (segments ++ [.index n]) [] false = some out ↔
                      ∃ segs, out = segments ++ [.index n] ++ segs ∧
                        Spells (held [] false ++ cs) segs := ih (by simp)
                  simp [hnext, held]
            · simp [hclose]
      | false =>
          simp only [Bool.false_eq_true, if_false, held]
          by_cases hfield : isFieldChar c
          · have hsep := hfield
            simp only [isFieldChar, Bool.and_eq_true, decide_eq_true_eq] at hsep
            rw [if_neg hsep.1.1, if_neg hsep.1.2, if_neg hsep.2,
              ih (by simpa [hfield] using hcur)]
            simp [held]
          · simp only [spells_run_iff hcur (c :: cs) (by simpa [Stops] using hfield)]
            rw [pushField_eq]
            by_cases hdot : c = '.'
            · subst hdot
              rw [if_pos rfl, ih (by simp)]
              simp [held]
            by_cases hopen : c = '['
            · subst hopen
              rw [if_neg (by decide), if_pos rfl, ih (by simp)]
              simp [held]
            · have hclose : c = ']' := by simpa [isFieldChar, hdot, hopen] using hfield
              subst hclose
              simp

/-- `KeyPath::parse` accepts the texts that spell a segment, once trimmed. -/
theorem parse_eq_some_iff {s : String} {segs : List Segment} :
    (KeyPath.parse s).map KeyPath.segments = some segs ↔
      segs ≠ [] ∧ Spells (trim s.toList) segs := by
  have hloop : parseLoop (trim s.toList) [] [] false = some segs ↔ Spells (trim s.toList) segs := by
    rw [parseLoop_eq_some_iff (by simp)]
    simp [held]
  unfold KeyPath.parse
  dsimp only
  rw [← hloop]
  split
  · next hempty =>
      rw [List.isEmpty_iff.mp hempty]
      simp [parseLoop, pushField]
  · split
    · next seg out hout =>
        rw [hout]
        simp
        grind
    · next hout =>
        simp only [Option.map_none, reduceCtorEq, false_iff, not_and]
        intro hne h
        obtain ⟨seg, tail, rfl⟩ := List.exists_cons_of_ne_nil hne
        exact hout seg tail h

/-! ## dotted notation -/

/-- A segment that is written as it is: a field whose name has no separator in
it and no blanks around it, or an index that fits into a `usize`. -/
def Segment.Plain : Segment → Prop
  | .field name => name ≠ "" ∧ name.toList.all isFieldChar ∧ Trimmed name.toList
  | .index i => i < 2 ^ 64

/-- A segment behind another one. -/
def Segment.suffix : Segment → List Char
  | .field name => '.' :: name.toList
  | .index i => '[' :: (i.repr.toList ++ [']'])

/-- Segments in dotted notation. -/
def dotted : List Segment → List Char
  | .field name :: segs => name.toList ++ segs.flatMap Segment.suffix
  | segs => segs.flatMap Segment.suffix

/-- What is read behind a segment goes on with another one. -/
theorem spells_suffixes {segs : List Segment} (h : ∀ seg ∈ segs, seg.Plain) :
    Stops (segs.flatMap Segment.suffix) ∧ Spells (segs.flatMap Segment.suffix) segs := by
  induction segs with
  | nil => simp [Stops]
  | cons seg segs ih =>
      obtain ⟨hseg, hsegs⟩ := List.forall_mem_cons.mp h
      obtain ⟨hstop, hspells⟩ := ih hsegs
      cases seg with
      | field name =>
          obtain ⟨hne, hchars, _⟩ := hseg
          have hfield := hspells.field (by simpa using hne) hchars hstop
          rw [String.ofList_toList] at hfield
          exact ⟨by simp [Segment.suffix, Stops, isFieldChar], hfield.dot⟩
      | index i =>
          have hindex := (spells_index_iff (isDigit_repr i) (']' :: segs.flatMap Segment.suffix)
            (by simp)).mpr ⟨i, _, segs, rfl, parseUsize_repr hseg, rfl, hspells⟩
          exact ⟨by simp [Segment.suffix, Stops, isFieldChar],
            by simpa [Segment.suffix] using hindex⟩

/-- A path spelled with dots and brackets spells its segments. -/
theorem spells_dotted {segs : List Segment} (h : ∀ seg ∈ segs, seg.Plain) :
    Spells (dotted segs) segs := by
  cases segs with
  | nil => simp [dotted]
  | cons seg segs =>
      cases seg with
      | index i => exact (spells_suffixes h).2
      | field name => exact spells_dot_iff.mp (spells_suffixes h).2

/-- A segment has no blank at its end. -/
theorem suffix_reverse {seg : Segment} (h : seg.Plain) :
    seg.suffix.reverse.dropWhile isWhitespace = seg.suffix.reverse := by
  cases seg with
  | index i => simp [Segment.suffix, isWhitespace]
  | field name =>
      obtain ⟨hne, _, _, hback⟩ := h
      have hend := dropWhile_append_of_eq hback (by simpa using hne) ['.']
      simpa [Segment.suffix] using hend

/-- A plain path has no white space at its end. -/
theorem suffixes_reverse {segs : List Segment} (h : ∀ seg ∈ segs, seg.Plain) :
    (segs.flatMap Segment.suffix).reverse.dropWhile isWhitespace =
      (segs.flatMap Segment.suffix).reverse := by
  obtain rfl | ⟨segs, seg, rfl⟩ := List.eq_nil_or_concat' segs
  · simp
  · have hne : seg.suffix.reverse ≠ [] := by cases seg <;> simp [Segment.suffix]
    have hseg := suffix_reverse (h seg (by simp))
    rw [List.flatMap_append, List.reverse_append]
    simpa using dropWhile_append_of_eq hseg hne (segs.flatMap Segment.suffix).reverse

/-- A plain path is trimmed. -/
theorem trimmed_dotted {segs : List Segment} (h : ∀ seg ∈ segs, seg.Plain) :
    Trimmed (dotted segs) := by
  cases segs with
  | nil => simp [dotted, Trimmed]
  | cons seg segs =>
      cases seg with
      | index i => exact ⟨by simp [dotted, Segment.suffix, isWhitespace], suffixes_reverse h⟩
      | field name =>
          obtain ⟨⟨hne, _, hfront, hback⟩, hsegs⟩ := List.forall_mem_cons.mp h
          have hend := suffixes_reverse hsegs
          refine ⟨dropWhile_append_of_eq hfront (by simpa using hne) _, ?_⟩
          rw [dotted, List.reverse_append]
          by_cases hnil : segs.flatMap Segment.suffix = []
          · simpa [hnil] using hback
          · exact dropWhile_append_of_eq hend (by simpa using hnil) _

/-- Segments that are written in dotted notation are read back. -/
theorem parse_dotted {segs : List Segment} (hne : segs ≠ []) (h : ∀ seg ∈ segs, seg.Plain) :
    (KeyPath.parse (String.ofList (dotted segs))).map KeyPath.segments = some segs := by
  rw [parse_eq_some_iff, String.toList_ofList, (trimmed_dotted h).trim_eq]
  exact ⟨hne, spells_dotted h⟩

/-- The grammar of key paths, and that what is written in dotted notation is
read back. -/
theorem KeyPath.parse_grammar :
    (∀ (s : String) (segs : List Segment),
      (KeyPath.parse s).map KeyPath.segments = some segs ↔
        segs ≠ [] ∧ Spells (trim s.toList) segs) ∧
    ∀ segs : List Segment, segs ≠ [] → (∀ seg ∈ segs, seg.Plain) →
      (KeyPath.parse (String.ofList (dotted segs))).map KeyPath.segments = some segs :=
  ⟨fun _ _ => parse_eq_some_iff, fun _ => parse_dotted⟩

theorem KeyPath.parse_grammar_peer :
    (KeyPath.parse (String.ofList
      (dotted [.field "wg", .index 0, .field "peers", .index 1, .field "public_key"]))).map
        KeyPath.segments =
      some [.field "wg", .index 0, .field "peers", .index 1, .field "public_key"] :=
  KeyPath.parse_grammar.2 _ (by simp) (by
    simp only [List.mem_cons, List.not_mem_nil, or_false, forall_eq_or_imp, forall_eq,
      Segment.Plain, Trimmed]
    decide +kernel)

end Zebrafish.ConfigTool
