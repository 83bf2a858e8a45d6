import Mathlib.Data.List.Nodup
import Mathlib.Data.List.TakeWhile
import Zebrafish.Compose.Networks

/-!
# Zebrafish.Compose.Listed

Of which compose files `compose_networks` lists every network.

A `Doc` is a compose file as far as its networks go: a `networks:` mapping in
block style, with comments and blank lines anywhere and anything around it.
The lemmas follow a scan through it, from line to entry to file (`scan_lines`);
entries the patterns do not know are passed over, and their lines go to the
network before them (`gather`).
-/

namespace Zebrafish.Compose

open Shell

/-! ## compose files -/

/-- Nothing more on a line, or a comment. -/
def isLineEnd (l : List Char) : Bool :=
  l.all isBlank || (l.head?.any isBlank && (l.dropWhile isBlank).head? = some '#')

/-- `{}` or `null`, and nothing more. -/
def isEmptyValue : List Char → Bool
  | '{' :: rest =>
      match rest.dropWhile isBlank with
      | '}' :: rest => isLineEnd rest
      | _ => false
  | l => ["null", "Null", "NULL", "~"].any fun word =>
      word.toList.isPrefixOf l && isLineEnd (l.drop word.length)

/-- What may stand behind the colon of an entry. -/
def isEntryEnd (l : List Char) : Bool :=
  isLineEnd l || (l.head?.any isBlank && isEmptyValue (l.dropWhile isBlank))

/-- The characters of a network's name. -/
def isNameChar (c : Char) : Bool := c.isAlphanum || c ∈ ['.', '_', '-']

/-- A blank line or a comment. -/
def isFiller (l : List Char) : Bool :=
  match l.dropWhile isSpace with
  | [] => true
  | c :: _ => c = '#'

/-- Something that is indented by at least so many blanks. -/
def isIndented (n : Nat) (l : List Char) : Bool :=
  n ≤ (l.takeWhile (· = ' ')).length &&
    match l.dropWhile (· = ' ') with
    | [] => false
    | c :: _ => !isSpace c && c ≠ '#'

/-- `external: true`, indented by exactly so many blanks. -/
def isTrueAt (n : Nat) (l : List Char) : Bool :=
  (List.replicate n ' ' ++ "external:".toList).isPrefixOf l &&
    let rest := l.drop (n + 9)
    let value := rest.dropWhile isBlank
    rest.head?.any isBlank && "true".toList.isPrefixOf value && isLineEnd (value.drop 4)

/-- An entry of the `networks:` mapping, its attributes and whatever is nested
in them in the lines below it; the attributes are indented as the first one
is. -/
structure Entry where
  name : List Char
  behind : List Char
  indent : Nat
  below : List (List Char)
  named : name ≠ [] ∧ name.all isNameChar
  ended : isEntryEnd behind
  deeper : 2 < indent
  attributes : ∀ l ∈ below, isFiller l ∨ isIndented indent l
  first : ∀ l ∈ below.find? fun l => !isFiller l, (l.takeWhile (· = ' ')).length = indent

/-- The line of an entry, indented by two blanks. -/
def Entry.line (e : Entry) : List Char := ' ' :: ' ' :: e.name ++ ':' :: e.behind

def Entry.external (e : Entry) : Bool := e.below.any (isTrueAt e.indent)

/-- A compose file with a `networks:` mapping in block style, and whatever else
around it. -/
structure Doc where
  before : List (List Char)
  behind : List Char
  top : List (List Char)
  entries : List Entry
  after : List (List Char)
  ended : isLineEnd behind
  filled : ∀ l ∈ top, isFiller l
  distinct : (entries.map Entry.name).Nodup
  once : ∀ l ∈ before ++ after, ¬ "networks:".toList <+: l
  closed : ∀ l ∈ after.head?, isTopLevel l

def Doc.lines (d : Doc) : List (List Char) :=
  d.before ++ ("networks:".toList ++ d.behind) ::
    (d.top ++ d.entries.flatMap (fun e => e.line :: e.below) ++ d.after)

/-! ## characters -/

/-- A blank is white space. -/
theorem isSpace_of_isBlank {c : Char} (h : isBlank c) : isSpace c := by
  simp only [isBlank, Bool.or_eq_true, decide_eq_true_eq] at h
  rcases h with rfl | rfl <;> decide

/-- A character of a name is none. -/
theorem not_isSpace_of_isNameChar {c : Char} (h : isNameChar c) : isSpace c = false := by
  by_contra hspace
  simp only [isSpace, Bool.not_eq_false, List.mem_cons, List.not_mem_nil, or_false,
    decide_eq_true_eq] at hspace
  rcases hspace with rfl | rfl | rfl | rfl | rfl | rfl <;> revert h <;> decide

theorem ne_of_isNameChar {c d : Char} (h : isNameChar c) (hd : isNameChar d = false) : c ≠ d := by
  rintro rfl
  simp [hd] at h

/-- Blanks are space. -/
theorem dropWhile_dropWhile (l : List Char) :
    (l.dropWhile isBlank).dropWhile isSpace = l.dropWhile isSpace := by
  induction l with
  | nil => simp
  | cons c l ih =>
      cases hc : isBlank c with
      | true => simp [hc, ih, isSpace_of_isBlank hc]
      | false => simp [hc]

/-- There is nothing to drop in front of a character that stays. -/
theorem dropWhile_of_head {p : Char → Bool} {l : List Char} {c : Char} (h : l.head? = some c)
    (hc : p c = false) : l.dropWhile p = l := by
  cases l with
  | nil => simp
  | cons d l =>
      simp only [List.head?_cons, Option.some.injEq] at h
      simp [h, hc]

/-- No value that may stand behind the colon of an entry looks like `true`. -/
theorem not_true_of_isEntryEnd {l : List Char} (h : isEntryEnd l) :
    "true".toList.isPrefixOf (l.dropWhile isSpace) = false := by
  rw [← dropWhile_dropWhile]
  have hcases : l.dropWhile isBlank = [] ∨
      ∃ c, (l.dropWhile isBlank).head? = some c ∧ isSpace c = false ∧ c ≠ 't' := by
    simp only [isEntryEnd, isLineEnd, Bool.or_eq_true, Bool.and_eq_true, decide_eq_true_eq] at h
    rcases h with (hall | ⟨-, hhead⟩) | ⟨-, hempty⟩
    · exact Or.inl (List.dropWhile_eq_nil_iff.mpr (by simpa using hall))
    · exact Or.inr ⟨'#', hhead, by decide, by decide⟩
    · right
      cases hl : l.dropWhile isBlank with
      | nil => simp [hl, isEmptyValue] at hempty
      | cons c rest =>
          refine ⟨c, by simp, ?_⟩
          by_cases hc : c = '{'
          · subst hc
            decide
          · rw [hl, isEmptyValue] at hempty
            · simp only [List.any_cons, List.any_nil, Bool.or_false, Bool.or_eq_true,
                Bool.and_eq_true, List.isPrefixOf_iff_prefix, String.reduceToList,
                List.cons_prefix_cons] at hempty
              rcases hempty with ⟨⟨rfl, -⟩, -⟩ | ⟨⟨rfl, -⟩, -⟩ | ⟨⟨rfl, -⟩, -⟩ | ⟨⟨rfl, -⟩, -⟩ <;>
                decide
            · simpa using hc
  rcases hcases with hnil | ⟨c, hhead, hspace, hc⟩
  · simp [hnil]
  · rw [dropWhile_of_head hhead hspace]
    cases hl : l.dropWhile isBlank with
    | nil => simp
    | cons d rest =>
        simp only [hl, List.head?_cons, Option.some.injEq] at hhead
        subst hhead
        simp [List.isPrefixOf, Ne.symm hc]

/-! ## lines -/

theorem not_isNetworks_of_head {l : List Char} {c : Char} (h : l.head? = some c) (hc : c ≠ 'n') :
    isNetworks l = false := by
  cases l with
  | nil => simp [isNetworks]
  | cons d l =>
      simp only [List.head?_cons, Option.some.injEq] at h
      subst h
      simp [isNetworks, List.isPrefixOf, Ne.symm hc]

/-- A line of the mapping starts with a space, unless it is a comment. -/
theorem inner_of_head {l : List Char} (h : ∀ c ∈ l.head?, isSpace c ∨ c = '#') :
    isNetworks l = false ∧ isTopLevel l = false := by
  cases l with
  | nil => decide
  | cons c l =>
      rcases h c (by simp) with hc | rfl
      · have hn : c ≠ 'n' := by
          rintro rfl
          revert hc
          decide
        exact ⟨not_isNetworks_of_head rfl hn, by simp [isTopLevel, hc]⟩
      · exact ⟨not_isNetworks_of_head rfl (by decide), by simp [isTopLevel]⟩

/-- A comment or an empty line opens and closes nothing. -/
theorem inner_of_isFiller {l : List Char} (h : isFiller l) :
    isNetworks l = false ∧ isTopLevel l = false := by
  refine inner_of_head ?_
  cases l with
  | nil => simp
  | cons c l =>
      cases hc : isSpace c <;> simp_all [isFiller]

/-- An indentation is dropped. -/
theorem dropWhile_replicate (k : Nat) (l : List Char) :
    (List.replicate k ' ' ++ l).dropWhile isSpace = l.dropWhile isSpace := by
  have hblank : isSpace ' ' = true := by decide
  induction k with
  | zero => simp
  | succ k ih => simp [List.replicate_succ, hblank, ih]

/-- An indented line, taken apart. -/
theorem exists_of_isIndented {n : Nat} {l : List Char} (h : isIndented n l) :
    ∃ k c rest, n ≤ k ∧ isSpace c = false ∧ c ≠ '#' ∧ l = List.replicate k ' ' ++ c :: rest := by
  unfold isIndented at h
  cases hl : l.dropWhile (· = ' ') with
  | nil => simp [hl] at h
  | cons c rest =>
      simp only [hl, Bool.and_eq_true, decide_eq_true_eq, Bool.not_eq_true'] at h
      have hblanks : l.takeWhile (· = ' ') =
          List.replicate (l.takeWhile (· = ' ')).length ' ' := by
        rw [List.eq_replicate_iff]
        refine ⟨rfl, ?_⟩
        intro b hb
        simpa using List.mem_takeWhile_imp hb
      refine ⟨(l.takeWhile (· = ' ')).length, c, rest, h.1, h.2.1, h.2.2, ?_⟩
      rw [← hblanks, ← hl, List.takeWhile_append_dropWhile]

/-- It opens and closes nothing. -/
theorem inner_of_isIndented {n : Nat} (hn : 0 < n) {l : List Char} (h : isIndented n l) :
    isNetworks l = false ∧ isTopLevel l = false := by
  refine inner_of_head ?_
  obtain ⟨k, c, rest, hk, -, -, rfl⟩ := exists_of_isIndented h
  obtain ⟨k, rfl⟩ : ∃ m, k = m + 1 := ⟨k - 1, by omega⟩
  simp [List.replicate_succ, isSpace]

/-- A comment or an empty line is no attribute. -/
theorem not_isExternal_of_isFiller {l : List Char} (h : isFiller l) : isExternal l = false := by
  cases l with
  | nil => decide
  | cons c l =>
      cases hc : isSpace c with
      | false => simp [isExternal, hc]
      | true =>
          simp only [isFiller, List.dropWhile_cons, hc, if_true] at h
          cases hl : l.dropWhile isSpace with
          | nil => simp [isExternal, hl]
          | cons d rest =>
              simp only [hl, decide_eq_true_eq] at h
              simp [isExternal, hl, h, List.isPrefixOf]

namespace Scan

variable {s : Scan} {l : List Char}

/-- Comments and empty lines are passed over. -/
theorem step_filler (hin : s.innets = true) (h : isFiller l) : s.step l = s := by
  obtain ⟨hnet, htop⟩ := inner_of_isFiller h
  have hext := not_isExternal_of_isFiller h
  have hcomment : isComment l = true ∨ isEntry l = false := by
    unfold isFiller at h
    cases hl : l.dropWhile isSpace with
    | nil =>
        right
        have hall : ∀ c ∈ l, isSpace c := List.dropWhile_eq_nil_iff.mp hl
        rcases l with _ | ⟨a, _ | ⟨b, _ | ⟨c, l⟩⟩⟩ <;> simp_all [isEntry]
    | cons c rest => simp_all [isComment]
  rcases hcomment with hcomment | hentry
  · simp [step, hnet, htop, hin, hcomment]
  · simp [step, hnet, htop, hin, hentry, hext]

/-- So is any number of them. -/
theorem foldl_filler (hin : s.innets = true) {ls : List (List Char)}
    (h : ∀ l ∈ ls, isFiller l) : ls.foldl step s = s := by
  induction ls with
  | nil => simp
  | cons l ls ih =>
      simp only [List.mem_cons, forall_eq_or_imp] at h
      rw [List.foldl_cons, step_filler hin h.1, ih h.2]

/-- A line below an entry says at most that it is external. -/
theorem step_indented (hin : s.innets = true) {n : Nat} (hn : 2 < n) (h : isIndented n l) :
    s.step l = { s with ext := if isExternal l then "true" else s.ext } := by
  obtain ⟨k, c, rest, hk, hspace, hc, rfl⟩ := exists_of_isIndented h
  have hcomment : isComment (List.replicate k ' ' ++ c :: rest) = false := by
    simp [isComment, dropWhile_replicate, hspace, hc]
  obtain ⟨k, rfl⟩ : ∃ m, k = m + 3 := ⟨k - 3, by omega⟩
  rw [List.replicate_succ, List.replicate_succ, List.replicate_succ] at hcomment ⊢
  simp only [List.cons_append] at hcomment ⊢
  obtain ⟨hnet, htop⟩ :=
    inner_of_head (l := ' ' :: ' ' :: ' ' :: (List.replicate k ' ' ++ c :: rest))
      (by simp [isSpace])
  have hentry : isEntry (' ' :: ' ' :: ' ' :: (List.replicate k ' ' ++ c :: rest)) = false := by
    simp [isEntry, isSpace]
  simp only [step, hnet, htop, hin, hcomment, hentry, Bool.false_eq_true, if_false, Bool.not_true]
  split
  · rfl
  · simp [← hin]

/-- A line below an entry. -/
theorem step_below (hin : s.innets = true) {e : Entry} (hl : l ∈ e.below) :
    s.step l = { s with ext := if isExternal l then "true" else s.ext } := by
  rcases e.attributes l hl with h | h
  · simp [step_filler hin h, not_isExternal_of_isFiller h]
  · exact step_indented hin e.deeper h

/-- So do all lines below it. -/
theorem foldl_below (hin : s.innets = true) (e : Entry) :
    e.below.foldl step s = { s with ext := if e.below.any isExternal then "true" else s.ext } := by
  have hall : ∀ ls : List (List Char), (∀ l ∈ ls, l ∈ e.below) → ∀ s : Scan, s.innets = true →
      ls.foldl step s = { s with ext := if ls.any isExternal then "true" else s.ext } := by
    intro ls
    induction ls with
    | nil => simp
    | cons l ls ih =>
        intro hls s hin
        have hrest := ih (fun x hx => hls x (by simp [hx]))
          { s with ext := if isExternal l then "true" else s.ext } hin
        rw [List.foldl_cons, step_below hin (hls l (by simp)), hrest, List.any_cons]
        cases isExternal l <;> simp only [Bool.false_or, Bool.true_or, if_true,
          Bool.false_eq_true, if_false, ite_self]
  exact hall e.below (fun _ => id) s hin

end Scan

/-! ## entries -/

namespace Entry

variable (e : Entry)

/-- A name has a first character. -/
theorem exists_name : ∃ c cs, e.name = c :: cs ∧ isNameChar c ∧ ∀ d ∈ cs, isNameChar d := by
  obtain ⟨hne, hall⟩ := e.named
  cases hname : e.name with
  | nil => exact absurd hname hne
  | cons c cs =>
      simp only [hname, List.all_cons, Bool.and_eq_true, List.all_eq_true] at hall
      exact ⟨c, cs, rfl, hall.1, hall.2⟩

/-- The line of an entry opens and closes nothing. -/
theorem inner_line : isNetworks e.line = false ∧ isTopLevel e.line = false :=
  inner_of_head (by simp [line, isSpace])

/-- The line of an entry without its indentation. -/
theorem dropWhile_line : e.line.dropWhile isSpace = e.name ++ ':' :: e.behind := by
  obtain ⟨c, cs, hname, hc, -⟩ := e.exists_name
  have hblank : isSpace ' ' = true := by decide
  simp [line, hname, hblank, not_isSpace_of_isNameChar hc]

/-- The line of an entry is no comment. -/
theorem not_isComment_line : isComment e.line = false := by
  obtain ⟨c, cs, hname, hc, -⟩ := e.exists_name
  have hne : c ≠ '#' := ne_of_isNameChar hc (by decide)
  simp [isComment, dropWhile_line, hname, hne]

/-- It is taken for an entry if nothing is behind its colon. -/
theorem isEntry_line : isEntry e.line = e.behind.all isSpace := by
  obtain ⟨c, cs, hname, hc, hcs⟩ := e.exists_name
  have hblank : isSpace ' ' = true := by decide
  have hdrop : (cs ++ ':' :: e.behind).dropWhile (fun x => !decide (x = ':')) =
      ':' :: e.behind := by
    rw [List.dropWhile_append_of_pos]
    · simp
    · intro d hd
      simpa using ne_of_isNameChar (hcs d hd) (by decide)
  simp [line, hname, isEntry, hblank, not_isSpace_of_isNameChar hc, hdrop]

/-- Its name is read off it. -/
theorem entryName_line : entryName e.line = e.name := by
  obtain ⟨c, cs, hname, hc, hcs⟩ := e.exists_name
  have hall : ∀ d ∈ c :: cs, isBlank d = false ∧ d ≠ ':' := by
    intro d hd
    have hd' : isNameChar d := by
      rcases List.mem_cons.mp hd with rfl | hd
      · exact hc
      · exact hcs d hd
    refine ⟨?_, ne_of_isNameChar hd' (by decide)⟩
    by_contra hblank
    have hspace := isSpace_of_isBlank (by simpa using hblank)
    simp [not_isSpace_of_isNameChar hd'] at hspace
  have hdrop : e.line.dropWhile isBlank = e.name ++ ':' :: e.behind := by
    have hblank : isBlank ' ' = true := by decide
    have hfirst := (hall c (by simp)).1
    simp [line, hname, hblank, hfirst]
  rw [entryName, hdrop, hname,
    List.takeWhile_append_of_pos (by simpa using fun d hd => (hall d hd).1),
    List.takeWhile_append_of_pos (by simpa using fun d hd => (hall d hd).2)]
  simp [isBlank]

/-- The line of an entry is not taken for an attribute. -/
theorem not_isExternal_line : isExternal e.line = false := by
  have hkey : isExternal e.line = ("external:".toList.isPrefixOf (e.name ++ ':' :: e.behind) &&
      "true".toList.isPrefixOf (((e.name ++ ':' :: e.behind).drop 9).dropWhile isSpace)) := by
    have hblank : isSpace ' ' = true := by decide
    have hdrop := e.dropWhile_line
    simp only [line, List.cons_append, List.dropWhile_cons, hblank, if_true] at hdrop
    simp [line, isExternal, hblank, hdrop]
  rw [hkey]
  by_contra h
  simp only [Bool.not_eq_false, Bool.and_eq_true, List.isPrefixOf_iff_prefix] at h
  obtain ⟨⟨rest, hrest⟩, htrue⟩ := h
  have hcolon : ':' ∉ e.name := by
    intro hmem
    exact ne_of_isNameChar (List.all_eq_true.mp e.named.2 _ hmem) (by decide) rfl
  have hsplit : "external".toList ++ ':' :: rest = e.name ++ ':' :: e.behind := by
    rw [← hrest]
    simp
  obtain ⟨hname, -⟩ := append_cons_inj (by decide) hcolon hsplit
  have hdrop : ("external".toList ++ ':' :: e.behind).drop 9 = e.behind := by simp
  rw [← hname, hdrop, ← List.isPrefixOf_iff_prefix, not_true_of_isEntryEnd e.ended] at htrue
  exact absurd htrue (by decide)

/-- Nothing but space stands behind the colon. -/
def plain : Bool := e.behind.all isSpace

/-- Whether a line below it looks like `external: true`. -/
def flagged : Bool := e.below.any isExternal

end Entry

/-! ## whole files -/

/-- The network a scan is in. -/
def Scan.current (s : Scan) : Option (List Char × String) :=
  if s.net ≠ [] then some (s.net, s.ext) else none

/-- What is seen in the end has the entry that was open. -/
theorem Scan.seen_flush (s : Scan) : s.flush.seen = s.seen ++ s.current.toList := by
  unfold Scan.flush Scan.current
  split <;> simp

/-- The networks seen of some entries, after the one that is current: an entry
that is not plain is passed over, and its lines are taken for that one's. -/
def gather : Option (List Char × String) → List Entry → List (List Char × String)
  | current, [] => current.toList
  | current, e :: es =>
      if e.plain then
        current.toList ++ gather (some (e.name, if e.flagged then "true" else "false")) es
      else gather (current.map fun p => (p.1, if e.flagged then "true" else p.2)) es

/-- The lines of an entry. -/
theorem Scan.foldl_entry {s : Scan} (hin : s.innets = true) (e : Entry) :
    (e.line :: e.below).foldl Scan.step s =
      if e.plain then
        ⟨true, e.name, if e.flagged then "true" else "false", s.seen ++ s.current.toList⟩
      else ⟨true, s.net, if e.flagged then "true" else s.ext, s.seen⟩ := by
  have hstep : s.step e.line =
      if e.plain then ⟨true, e.name, "false", s.seen ++ s.current.toList⟩ else s := by
    obtain ⟨hnet, htop⟩ := e.inner_line
    have hflush : { s.flush with net := e.name } =
        (⟨true, e.name, "false", s.seen ++ s.current.toList⟩ : Scan) := by
      rw [← s.seen_flush, ← hin]
      rfl
    rw [← hflush]
    simp [Scan.step, hnet, htop, hin, e.not_isComment_line, e.isEntry_line, e.entryName_line,
      e.not_isExternal_line, Entry.plain]
  rw [List.foldl_cons, hstep]
  cases e.plain with
  | true => exact Scan.foldl_below rfl e
  | false =>
      rw [if_neg (by simp), if_neg (by simp), Scan.foldl_below hin, ← hin]
      rfl

/-- The entries of the section, one after another. -/
theorem Scan.foldl_entries (es : List Entry) {s : Scan} (hin : s.innets = true) :
    (((es.flatMap fun e => e.line :: e.below).foldl Scan.step s).flush).seen =
      s.seen ++ gather s.current es := by
  induction es generalizing s with
  | nil => simp [Scan.seen_flush, gather]
  | cons e es ih =>
      rw [List.flatMap_cons, List.foldl_append, Scan.foldl_entry hin, gather]
      cases e.plain with
      | true =>
          have hrest := ih (s := ⟨true, e.name, if e.flagged then "true" else "false",
            s.seen ++ s.current.toList⟩) rfl
          simpa [Scan.current, e.named.1] using hrest
      | false =>
          have hrest := ih (s := ⟨true, s.net, if e.flagged then "true" else s.ext, s.seen⟩) rfl
          by_cases hnet : s.net = [] <;> simpa [Scan.current, hnet] using hrest

/-- Outside of the mapping. -/
structure Scan.Idle (s : Scan) (seen : List (List Char × String)) : Prop where
  innets : s.innets = false
  net : s.net = []
  seen : s.seen = seen

/-- Outside of the section nothing is seen. -/
theorem Scan.Idle.foldl {seen : List (List Char × String)} {ls : List (List Char)}
    (hls : ∀ l ∈ ls, isNetworks l = false) {s : Scan} (h : s.Idle seen) :
    (ls.foldl Scan.step s).Idle seen := by
  induction ls generalizing s with
  | nil => exact h
  | cons l ls ih =>
      simp only [List.mem_cons, forall_eq_or_imp] at hls
      refine ih hls.2 ?_
      obtain ⟨hin, hnet, hseen⟩ := h
      cases htop : isTopLevel l <;>
        constructor <;> simp [Scan.step, Scan.flush, hls.1, htop, hin, hnet, hseen]

/-- Nor is an entry open there. -/
theorem Scan.Idle.flush {seen : List (List Char × String)} {s : Scan} (h : s.Idle seen) :
    s.flush.seen = seen := by
  simp [Scan.flush, h.net, h.seen]

namespace Doc

variable (d : Doc)

/-- The header of the section is seen if nothing is behind its colon. -/
theorem isNetworks_header : isNetworks ("networks:".toList ++ d.behind) =
    d.behind.all isSpace := by
  simp [isNetworks]

/-- No other line is taken for the header. -/
theorem not_isNetworks_of_once {l : List Char} (h : ¬ "networks:".toList <+: l) :
    isNetworks l = false := by
  rw [← List.isPrefixOf_iff_prefix, Bool.not_eq_true] at h
  rw [isNetworks, h, Bool.false_and]

/-- The rest of a file changes nothing any more. -/
theorem foldl_after (s : Scan) : ((d.after.foldl Scan.step s).flush).seen = s.flush.seen := by
  have honce : ∀ l ∈ d.after, isNetworks l = false := fun l hl =>
    not_isNetworks_of_once (d.once l (by simp [hl]))
  have hclosed := d.closed
  cases hafter : d.after with
  | nil => simp
  | cons l ls =>
      simp only [hafter, List.mem_cons, forall_eq_or_imp] at honce
      simp only [hafter, List.head?_cons, Option.mem_def, Option.some.injEq, forall_eq'] at hclosed
      have hidle : (s.step l).Idle s.flush.seen := by
        constructor <;> simp [Scan.step, Scan.flush, honce.1, hclosed]
      exact (hidle.foldl honce.2).flush

theorem not_isNetworks_body :
    ∀ l ∈ d.top ++ d.entries.flatMap (fun e => e.line :: e.below) ++ d.after,
      isNetworks l = false := by
  intro l hl
  simp only [List.mem_append, List.mem_flatMap, List.mem_cons] at hl
  rcases hl with (hl | ⟨e, -, rfl | hl⟩) | hl
  · exact (inner_of_isFiller (d.filled l hl)).1
  · exact e.inner_line.1
  · rcases e.attributes l hl with h | h
    · exact (inner_of_isFiller h).1
    · exact (inner_of_isIndented (Nat.zero_lt_of_lt e.deeper) h).1
  · exact not_isNetworks_of_once (d.once l (by simp [hl]))

/-- What is seen of a file. -/
theorem scan_lines :
    scan d.lines = if d.behind.all isSpace then gather none d.entries else [] := by
  have hbefore : (d.before.foldl Scan.step Scan.init).Idle [] := by
    refine Scan.Idle.foldl ?_ ⟨rfl, rfl, rfl⟩
    exact fun l hl => not_isNetworks_of_once (d.once l (by simp [hl]))
  have htop : isTopLevel ("networks:".toList ++ d.behind) = true := by
    simp [isTopLevel, isSpace]
  rw [scan, Doc.lines, List.foldl_append, List.foldl_cons]
  generalize d.before.foldl Scan.step Scan.init = s at hbefore
  obtain ⟨hin, hnet, hseen⟩ := hbefore
  cases hplain : d.behind.all isSpace with
  | true =>
      have hstep : s.step ("networks:".toList ++ d.behind) = ⟨true, [], s.ext, []⟩ := by
        rw [Scan.step, isNetworks_header, hplain, if_pos rfl, hnet, hseen]
      rw [hstep, List.foldl_append, List.foldl_append, Scan.foldl_filler rfl d.filled,
        foldl_after, Scan.foldl_entries d.entries rfl]
      simp [Scan.current]
  | false =>
      have hidle : (s.step ("networks:".toList ++ d.behind)).Idle [] := by
        have hstep : s.step ("networks:".toList ++ d.behind) =
            { s.flush with innets := false } := by
          rw [Scan.step, isNetworks_header, hplain, htop]
          simp
        rw [hstep]
        constructor <;> simp [Scan.flush, hnet, hseen]
      rw [(hidle.foldl d.not_isNetworks_body).flush]
      simp

end Doc

/-! ## what is listed -/

/-- A line `external: true` is taken for one. -/
theorem isExternal_of_isTrueAt {n : Nat} (hn : 0 < n) {l : List Char} (h : isTrueAt n l) :
    isExternal l := by
  simp only [isTrueAt, Bool.and_eq_true, List.isPrefixOf_iff_prefix] at h
  obtain ⟨⟨rest, rfl⟩, ⟨-, htrue⟩, -⟩ := h
  obtain ⟨k, rfl⟩ : ∃ k, n = k + 1 := ⟨n - 1, by omega⟩
  have hrest : ((List.replicate (k + 1) ' ' ++ "external:".toList) ++ rest).drop (k + 1 + 9) =
      rest := List.drop_left' (by simp)
  rw [hrest] at htrue
  have hkey : ((List.replicate k ' ' ++ "external:".toList) ++ rest).dropWhile isSpace =
      "external:".toList ++ rest := by
    rw [List.append_assoc, dropWhile_replicate]
    simp [isSpace]
  have hvalue : rest.dropWhile isSpace = rest.dropWhile isBlank := by
    obtain ⟨tail, htail⟩ := htrue
    rw [← dropWhile_dropWhile]
    exact dropWhile_of_head (c := 't') (by simp [← htail]) (by decide)
  rw [List.replicate_succ, List.cons_append, List.cons_append, isExternal, hkey]
  rw [← List.isPrefixOf_iff_prefix] at htrue
  have hdrop : ("external:".toList ++ rest).drop 9 = rest := by simp
  rw [hdrop, hvalue, htrue]
  simp [isSpace]

/-- An external entry is flagged as one. -/
theorem Entry.flagged_of_external {e : Entry} (h : e.external) : e.flagged := by
  obtain ⟨l, hl, htrue⟩ := List.any_eq_true.mp h
  exact List.any_eq_true.mpr
    ⟨l, hl, isExternal_of_isTrueAt (Nat.zero_lt_of_lt e.deeper) htrue⟩

/-- All plain entries are gathered. -/
theorem length_gather (current : Option (List Char × String)) (es : List Entry) :
    (gather current es).length = current.toList.length + (es.filter Entry.plain).length := by
  induction es generalizing current with
  | nil => simp [gather]
  | cons e es ih =>
      rw [gather]
      cases hplain : e.plain with
      | true =>
          simp [ih, hplain]
          omega
      | false => cases current <;> simp [ih, hplain]

/-- A word for a truth value, as the script passes it. -/
def word (b : Bool) : String := if b then "true" else "false"

/-- Each is in one list or the other. -/
theorem mem_gather {current : Option (List Char × String)} {es : List Entry}
    (hcurrent : ∀ p ∈ current, ∃ b, p.2 = word b) :
    ∀ p ∈ gather current es, ∃ b, p.2 = word b := by
  induction es generalizing current with
  | nil => simpa [gather] using hcurrent
  | cons e es ih =>
      rw [gather]
      split
      · simp only [List.mem_append, Option.mem_toList]
        rintro p (hp | hp)
        · exact hcurrent p hp
        · exact ih (by simp [word]) p hp
      · refine ih ?_
        cases current with
        | none => simp
        | some q =>
            obtain ⟨b, hb⟩ := hcurrent q rfl
            cases e.flagged <;> cases b <;> simp [hb, word]

/-- Plain entries are seen one by one. -/
theorem gather_of_plain {es : List Entry} (h : ∀ e ∈ es, e.plain)
    (current : Option (List Char × String)) :
    gather current es = current.toList ++ es.map fun e => (e.name, word e.flagged) := by
  induction es generalizing current with
  | nil => simp [gather]
  | cons e es ih =>
      simp only [List.mem_cons, forall_eq_or_imp] at h
      simp [gather, h.1, ih h.2, word]

/-- The two lists have different names. -/
theorem word_inj {a b : Bool} : word a = word b ↔ a = b := by
  cases a <;> cases b <;> decide

/-- Of words only, every pair is of one kind. -/
theorem length_only {seen : List (List Char × String)} (h : ∀ p ∈ seen, ∃ b, p.2 = word b) :
    (only (word true) seen).length + (only (word false) seen).length = seen.length := by
  induction seen with
  | nil => simp [only]
  | cons p seen ih =>
      simp only [List.mem_cons, forall_eq_or_imp] at h
      obtain ⟨b, hb⟩ := h.1
      have hrest := ih h.2
      simp only [only, List.length_map] at hrest ⊢
      cases b <;> simp [hb, word_inj] <;> omega

/-- What the program should print. -/
def Doc.networks (d : Doc) (external : Bool) : List (List Char) :=
  (d.entries.filter fun e => e.external = external).map Entry.name

/-- Every network is in one of the lists. -/
theorem Doc.length_networks (d : Doc) :
    (d.networks true).length + (d.networks false).length = d.entries.length := by
  rw [List.length_eq_countP_add_countP (fun e => e.external) (l := d.entries)]
  simp [Doc.networks, List.countP_eq_length_filter]

/-- **The networks of a compose file.**  All of them are listed, each with its
kind, exactly when there are none, or nothing but space stands behind
`networks:` and behind each name, and no network that is not external has a
line below it that looks like `external: true`. -/
theorem networks_listed_iff (d : Doc) {text : List Char} (htext : Shell.lines text = d.lines) :
    (∀ external, composeNetworks text (word external) = d.networks external) ↔
      d.entries = [] ∨ (d.behind.all isSpace ∧
        ∀ e ∈ d.entries, e.behind.all isSpace ∧ (e.below.any isExternal → e.external)) := by
  simp only [composeNetworks_eq, htext, d.scan_lines]
  constructor
  · intro h
    cases hbehind : d.behind.all isSpace with
    | false =>
        -- the mapping is not found, so nothing is listed
        have hlength := d.length_networks
        rw [← h true, ← h false] at hlength
        left
        simpa [hbehind, only] using hlength.symm
    | true =>
        simp only [hbehind, if_true] at h
        -- every entry is counted, so every entry is plain
        have hgather : ∀ p ∈ gather none d.entries, ∃ b, p.2 = word b := mem_gather (by simp)
        have hlength := length_only hgather
        rw [h true, h false, d.length_networks, length_gather] at hlength
        have hplain : ∀ e ∈ d.entries, e.plain := by
          rw [← List.length_filter_eq_length_iff]
          simpa using hlength.symm
        refine Or.inr ⟨rfl, fun e he => ⟨hplain e he, fun hflag => ?_⟩⟩
        have hlisted : e.name ∈ d.networks true := by
          rw [← h true, gather_of_plain hplain]
          have hflagged : e.flagged = true := hflag
          simp only [only, Option.toList_none, List.nil_append, List.mem_map, List.mem_filter]
          exact ⟨(e.name, word true), ⟨⟨e, he, by rw [hflagged]⟩, by simp⟩, rfl⟩
        obtain ⟨e', he', hname⟩ := List.mem_map.mp hlisted
        obtain ⟨hmem, hext⟩ := List.mem_filter.mp he'
        rw [List.inj_on_of_nodup_map d.distinct hmem he hname] at hext
        simpa using hext
  · rintro (hnone | ⟨hbehind, hall⟩) external
    · simp [hnone, gather, only, Doc.networks]
    · have hplain : ∀ e ∈ d.entries, e.plain := fun e he => (hall e he).1
      have hflag : ∀ e ∈ d.entries, e.flagged = e.external := by
        intro e he
        rw [Bool.eq_iff_iff]
        exact ⟨(hall e he).2, Entry.flagged_of_external⟩
      rw [if_pos hbehind, gather_of_plain hplain, Doc.networks, only, Option.toList_none,
        List.nil_append, List.filter_map, List.map_map]
      congr 1
      refine List.filter_congr ?_
      intro e he
      simp [hflag e he, word_inj]

/-- A file with a network of its own and one of another project. -/
def webDoc : Doc where
  before := ["services:".toList, "  web:".toList, "    networks: [backend]".toList]
  behind := " ".toList
  top := [[], "# managed by hand".toList]
  entries :=
    [{ name := "backend".toList
       behind := []
       indent := 4
       below := ["    driver: bridge".toList, "  # external: true".toList]
       named := by decide +kernel
       ended := by decide
       deeper := by decide
       attributes := by decide +kernel
       first := by decide +kernel },
     { name := "caddy_proxy".toList
       behind := []
       indent := 6
       below := ["      external: true # see /compose/caddy".toList, []]
       named := by decide +kernel
       ended := by decide
       deeper := by decide
       attributes := by decide +kernel
       first := by decide +kernel }]
  after := ["volumes:".toList, "  data:".toList]
  ended := by decide
  filled := by decide +kernel
  distinct := by decide +kernel
  once := by decide +kernel
  closed := by simp [isTopLevel, isSpace]

theorem networks_listed_web :
    composeNetworks (unlines webDoc.lines) (word true) = webDoc.networks true ∧
      composeNetworks (unlines webDoc.lines) (word false) = webDoc.networks false := by
  have hlines : Shell.lines (unlines webDoc.lines) = webDoc.lines :=
    lines_unlines (by decide +kernel)
  have hall := (networks_listed_iff webDoc hlines).mpr (Or.inr (by decide +kernel))
  exact ⟨hall true, hall false⟩

/-- A file with one network, and an empty map behind its name. -/
def emptyMapDoc : Doc where
  before := []
  behind := []
  top := []
  entries :=
    [{ name := "backend".toList
       behind := [' ', '{', '}']
       indent := 4
       below := []
       named := by decide +kernel
       ended := by decide +kernel
       deeper := by decide
       attributes := by decide
       first := by decide }]
  after := []
  ended := by decide
  filled := by decide
  distinct := by decide +kernel
  once := by decide
  closed := by simp

/-- Its network is in neither list. -/
theorem empty_map_lost :
    Shell.lines "networks:\n  backend: \x7b\x7d\n".toList = emptyMapDoc.lines ∧
      (∀ external, composeNetworks "networks:\n  backend: \x7b\x7d\n".toList (word external) = []) ∧
      ¬ ∀ external, composeNetworks "networks:\n  backend: \x7b\x7d\n".toList (word external) =
        emptyMapDoc.networks external := by
  decide +kernel

end Zebrafish.Compose
