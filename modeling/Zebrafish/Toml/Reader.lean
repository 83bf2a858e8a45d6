import Zebrafish.Toml.Statement

/-!
# Toml.Reader

From the text of a TOML file to its statements.

The grammar of single statements is left to a `Reader`; what matters here is how
texts are put together.  A TOML file is a sequence of lines that are statements,
so the statements of two files, one after the other with a newline between, are
those of the first and then those of the second.  Only a byte-order mark is
different: it may come first in a file and nowhere else.

`parse_concat_iff` says when the document of two files in a row is the union of
their documents.
-/

namespace Toml

/-- The byte-order mark, U+FEFF. -/
def byteOrderMark : Char := Char.ofNat 0xfeff

def startsWithMark (s : String) : Bool := s.toList.head? = some byteOrderMark

structure Reader where
  statements : String → Option (List Stmt)
  concat : ∀ {s₁ s₂ : String} {a b : List Stmt}, statements s₁ = some a → statements s₂ = some b →
    startsWithMark s₂ = false → statements (s₁ ++ "\n" ++ s₂) = some (a ++ b)
  mark : ∀ {s₁ s₂ : String} {a : List Stmt}, statements s₁ = some a →
    startsWithMark s₂ = true → statements (s₁ ++ "\n" ++ s₂) = none

/-- The document of a text. -/
def Reader.parse (R : Reader) (s : String) : Option Entries := (R.statements s).bind document

/-! ## two files in a row -/

/-- Whether a key/value pair comes before every header. -/
def startsWithKeyval : List Stmt → Bool
  | .keyval _ _ _ :: _ => true
  | _ => false

/-- A header says on its own where it is. -/
theorem run_header_eq {stmts : List Stmt} (h : startsWithKeyval stmts = false)
    (header header' : List String) (root : Nodes) :
    run header root stmts = run header' root stmts := by
  cases stmts with
  | nil => rfl
  | cons stmt stmts =>
      cases stmt with
      | keyval parents name v => cases h
      | table parents name => rfl
      | arrayTable parents name => rfl

/-- The keys of a tree are those of its nodes. -/
theorem keys_nodesToValue (t : Nodes) : keys (nodesToValue t) = t.map Prod.fst := by
  induction t with
  | nil => rfl
  | cons e t ih =>
      obtain ⟨k, x⟩ := e
      rw [nodesToValue, keys, List.map_cons, List.map_cons, ← keys, ih]

/-- The tree of two parts. -/
theorem nodesToValue_append (t u : Nodes) :
    nodesToValue (t ++ u) = nodesToValue t ++ nodesToValue u := by
  induction t with
  | nil => rfl
  | cons e t ih =>
      obtain ⟨k, x⟩ := e
      rw [List.cons_append, nodesToValue, nodesToValue, ih, List.cons_append]

/-- Nothing is read under a key that is not there. -/
theorem under_of_not_mem {entries : Entries} {k : String} {q : List String}
    (h : k ∉ keys entries) : Value.under (k :: q) (.table entries) = none := by
  rw [Value.under, Assoc.lookup_eq_none_iff.mpr h]
  rfl

/-- What is read in a union, under a key of the second part. -/
theorem under_append_of_not_mem {m s : Entries} {k : String} (q : List String) (h : k ∉ keys m) :
    Value.under (k :: q) (.table (m ++ s)) = Value.under (k :: q) (.table s) := by
  rw [Value.under, Value.under, List.lookup_append, Assoc.lookup_eq_none_iff.mpr h]
  rfl

/-- Behind a header, the first key of the second file gets lost. -/
theorem union_lost {a b : List Stmt} {parents : List String} {name : String} {v : Value}
    {ta tb root : Nodes} (hta : run [] [] a = some ta)
    (htb : run [] [] (.keyval parents name v :: b) = some tb)
    (hd : ∀ k ∈ ta.map Prod.fst, k ∉ tb.map Prod.fst) (hheader : ¬ a.all Stmt.isKeyval)
    (hroot : run (a.foldl Stmt.next []) ta (.keyval parents name v :: b) = some root) :
    nodesToValue root ≠ nodesToValue ta ++ nodesToValue tb := by
  obtain ⟨x, header, hfold⟩ := List.exists_cons_of_ne_nil (foldl_next_of_header hheader [])
  obtain ⟨c, q, hq⟩ := List.exists_cons_of_ne_nil (List.concat_ne_nil name parents)
  have hxa : x ∈ ta.map Prod.fst := by
    refine head_next_mem ?_ hta x (by rw [hfold]; rfl)
    intro x hx
    cases hx
  have hcb : c ∈ tb.map Prod.fst := by
    obtain ⟨root₁, happly, hrest⟩ := Option.bind_eq_some_iff.mp htb
    refine (mem_keys_run_iff hrest).mpr (Or.inl ((Stmt.mem_keys_apply happly).mpr (Or.inr ?_)))
    cases parents <;> cases hq <;> rfl
  have hca : c ∉ ta.map Prod.fst := fun hmem => hd c hmem hcb
  have hne : (parents ++ [name]).head? ≠ some x := by
    rw [hq]
    rintro ⟨⟩
    exact hca hxa
  have hfront : Value.under (parents ++ [name]) (.table (nodesToValue ta)) = none := by
    rw [hq]
    exact under_of_not_mem (by rwa [keys_nodesToValue])
  rw [hfold] at hroot
  obtain ⟨halone, hlost⟩ := first_key_lost htb hne hfront hroot
  intro heq
  rw [hq] at halone hlost
  rw [heq, under_append_of_not_mem q (by rwa [keys_nodesToValue]), halone] at hlost
  cases hlost

/-- With disjoint top-level keys, the second file has to start with a header if
the first one has any. -/
theorem document_append_iff {a b : List Stmt} {m s : Entries} (hm : document a = some m)
    (hs : document b = some s) (hd : ∀ k ∈ keys m, k ∉ keys s) :
    document (a ++ b) = some (m ++ s) ↔ a.all Stmt.isKeyval ∨ startsWithKeyval b = false := by
  obtain ⟨ta, hta, rfl⟩ := Option.map_eq_some_iff.mp hm
  obtain ⟨tb, htb, rfl⟩ := Option.map_eq_some_iff.mp hs
  simp only [keys_nodesToValue] at hd
  have hrun : run [] [] (a ++ b) = run (a.foldl Stmt.next []) ta b := by
    rw [run_append, hta]
    rfl
  constructor
  · intro hunion
    rw [document, hrun] at hunion
    obtain ⟨root, hroot, heq⟩ := Option.map_eq_some_iff.mp hunion
    by_contra hnot
    rw [not_or, Bool.not_eq_false] at hnot
    obtain ⟨hheader, hkeyval⟩ := hnot
    cases b with
    | nil => cases hkeyval
    | cons stmt b =>
        cases stmt with
        | table parents name => cases hkeyval
        | arrayTable parents name => cases hkeyval
        | keyval parents name v =>
            exact absurd heq (union_lost hta htb hd hheader hroot)
  · intro h
    have hsame : run (a.foldl Stmt.next []) ta b = run [] ta b := by
      rcases h with h | h
      · rw [foldl_next_of_keyvals h]
      · exact run_header_eq h _ _ _
    have hall := run_disjoint htb hd
    rw [List.append_nil] at hall
    rw [document, hrun, hsame, hall, Option.map_some, nodesToValue_append]

/-- When two texts in a row are read as the union of both. -/
theorem Reader.parse_concat_iff (R : Reader) {s₁ s₂ : String} {a b : List Stmt} {m s : Entries}
    (ha : R.statements s₁ = some a) (hb : R.statements s₂ = some b) (hm : document a = some m)
    (hs : document b = some s) (hd : ∀ k ∈ keys m, k ∉ keys s) :
    R.parse (s₁ ++ "\n" ++ s₂) = some (m ++ s) ↔
      startsWithMark s₂ = false ∧ (a.all Stmt.isKeyval ∨ startsWithKeyval b = false) := by
  rw [Reader.parse]
  cases hmark : startsWithMark s₂ with
  | true =>
      rw [R.mark ha hmark]
      simp
  | false =>
      rw [R.concat ha hb hmark, Option.bind_some, document_append_iff hm hs hd]
      simp

/-- Documents about different keys, the second one under headers, are read one
after the other as each alone, and refused where one of them is. -/
theorem document_append_eq {a b : List Stmt} (hd : ∀ k ∈ topKeys [] a, k ∉ topKeys [] b)
    (hstart : startsWithKeyval b = false) :
    document (a ++ b) = (document a).bind fun m => (document b).map fun s => m ++ s := by
  rw [document, run_append, document, document]
  cases hta : run [] [] a with
  | none => rfl
  | some ta =>
      have hfront : ∀ k ∈ ta.map Prod.fst, k ∉ topKeys [] b := by
        intro k hk
        rw [mem_keys_run_iff hta] at hk
        simpa using fun hmem => hd k (by simpa using hk) hmem
      have hrun := run_front hfront []
      rw [List.append_nil] at hrun
      rw [Option.bind_some, run_header_eq hstart _ [], hrun]
      cases run [] [] b with
      | none => rfl
      | some tb => simp [nodesToValue_append]

/-- What is read of two texts in a row, one without a key at its start. -/
theorem Reader.parse_concat_eq (R : Reader) {s₁ s₂ : String} {a b : List Stmt}
    (ha : R.statements s₁ = some a) (hb : R.statements s₂ = some b)
    (hd : ∀ k ∈ topKeys [] a, k ∉ topKeys [] b) (hstart : startsWithKeyval b = false) :
    R.parse (s₁ ++ "\n" ++ s₂) =
      if startsWithMark s₂ then none
      else (R.parse s₁).bind fun m => (R.parse s₂).map fun s => m ++ s := by
  rw [Reader.parse, Reader.parse, Reader.parse, ha, hb]
  split
  · next hmark => rw [R.mark ha hmark, Option.bind_none]
  · next hmark =>
      rw [R.concat ha hb (by simpa using hmark), Option.bind_some, document_append_eq hd hstart]
      rfl

/-! ## a small reader

One statement on each line: bare keys, and strings without escapes. -/

def lines : List Char → List (List Char)
  | [] => [[]]
  | c :: cs =>
      if c = '\n' then [] :: lines cs
      else
        match lines cs with
        | l :: ls => (c :: l) :: ls
        | [] => [[c]]

theorem lines_ne_nil (cs : List Char) : lines cs ≠ [] := by
  cases cs with
  | nil => simp [lines]
  | cons c cs =>
      rw [lines]
      split
      · simp
      · split <;> simp

/-- The lines of two texts with a newline between them. -/
theorem lines_append (a b : List Char) : lines (a ++ '\n' :: b) = lines a ++ lines b := by
  induction a with
  | nil => rfl
  | cons c a ih =>
      rw [List.cons_append, lines, lines, ih]
      split
      · rfl
      · obtain ⟨l, ls, hl⟩ := List.exists_cons_of_ne_nil (lines_ne_nil a)
        rw [hl]
        rfl

def stripSpaces (cs : List Char) : List Char :=
  ((cs.dropWhile (· = ' ')).reverse.dropWhile (· = ' ')).reverse

/-- A bare key, or several with dots between: the ones before the last, and the
last. -/
def lineKeys (cs : List Char) : Option (List String × String) :=
  let isBare (c : Char) : Bool := c.isAlphanum || c = '-' || c = '_'
  let keys := (stripSpaces cs).splitOn '.'
  if keys.all fun k => !k.isEmpty && k.all isBare then
    keys.getLast?.map fun k => (keys.dropLast.map String.ofList, String.ofList k)
  else none

def lineString (cs : List Char) : Option String :=
  match stripSpaces cs with
  | '"' :: cs =>
      let body := cs.takeWhile fun c => c ≠ '"' ∧ c ≠ '\\'
      if cs = body ++ ['"'] then some (String.ofList body) else none
  | _ => none

/-- The statement on a line, if there is one. -/
def lineStmt : List Char → Option (Option Stmt)
  | [] => some none
  | '#' :: _ => some none
  | '[' :: '[' :: cs => do
      let (parents, name) ← lineKeys (cs.takeWhile (· ≠ ']'))
      if cs.dropWhile (· ≠ ']') = [']', ']'] then some (some (.arrayTable parents name)) else none
  | '[' :: cs => do
      let (parents, name) ← lineKeys (cs.takeWhile (· ≠ ']'))
      if cs.dropWhile (· ≠ ']') = [']'] then some (some (.table parents name)) else none
  | cs =>
      if cs.head? = some byteOrderMark then none
      else do
        let (parents, name) ← lineKeys (cs.takeWhile (· ≠ '='))
        let s ← lineString ((cs.dropWhile (· ≠ '=')).drop 1)
        some (some (.keyval parents name (.string s)))

def linesStmts (ls : List (List Char)) : Option (List Stmt) :=
  (ls.mapM lineStmt).map fun l => l.filterMap id

/-- A line that is no statement spoils the text. -/
theorem linesStmts_refused {ls : List (List Char)} {l : List Char} (hl : l ∈ ls)
    (h : lineStmt l = none) : linesStmts ls = none := by
  induction ls with
  | nil => cases hl
  | cons l₁ ls ih =>
      rw [linesStmts, List.mapM_cons]
      rcases List.mem_cons.mp hl with rfl | hl
      · rw [h]
        rfl
      · have hrest : ls.mapM lineStmt = none := by
          rw [linesStmts, Option.map_eq_none_iff] at ih
          exact ih hl
        rw [hrest]
        cases lineStmt l₁ <;> rfl

/-- A byte-order mark is part of the first line. -/
theorem lines_mark (cs : List Char) :
    ∃ l ls, lines (byteOrderMark :: cs) = (byteOrderMark :: l) :: ls := by
  obtain ⟨l, ls, hl⟩ := List.exists_cons_of_ne_nil (lines_ne_nil cs)
  refine ⟨l, ls, ?_⟩
  rw [lines, if_neg (by decide), hl]

def stripMark : List Char → List Char
  | c :: cs => if c = byteOrderMark then cs else c :: cs
  | [] => []

/-- The statements of two texts in a row. -/
theorem linesStmts_append {a b : List (List Char)} {l l' : List Stmt}
    (ha : linesStmts a = some l) (hb : linesStmts b = some l') :
    linesStmts (a ++ b) = some (l ++ l') := by
  obtain ⟨x, hx, rfl⟩ := Option.map_eq_some_iff.mp ha
  obtain ⟨y, hy, rfl⟩ := Option.map_eq_some_iff.mp hb
  simp [linesStmts, List.mapM_append, hx, hy]

/-- A mark is stripped from the first text only. -/
theorem stripMark_append (a b : List Char) :
    stripMark (a ++ '\n' :: b) = stripMark a ++ '\n' :: b := by
  cases a with
  | nil => rfl
  | cons c a =>
      rw [List.cons_append, stripMark, stripMark]
      split <;> rfl

/-- Without a mark there is nothing to strip. -/
theorem stripMark_of_not {s : String} (h : startsWithMark s = false) :
    stripMark s.toList = s.toList := by
  unfold startsWithMark at h
  cases hs : s.toList with
  | nil => rfl
  | cons c cs =>
      rw [hs] at h
      have hc : c ≠ byteOrderMark := by simpa using h
      simp [stripMark, hc]

theorem toList_concat (s₁ s₂ : String) :
    (s₁ ++ "\n" ++ s₂).toList = s₁.toList ++ '\n' :: s₂.toList := by
  simp

def lineReader : Reader where
  statements s := linesStmts (lines (stripMark s.toList))
  concat := by
    intro s₁ s₂ a b ha hb hmark
    rw [stripMark_of_not hmark] at hb
    rw [toList_concat, stripMark_append, lines_append]
    exact linesStmts_append ha hb
  mark := by
    intro s₁ s₂ a ha hmark
    rw [toList_concat, stripMark_append, lines_append]
    obtain ⟨cs, hcs⟩ : ∃ cs, s₂.toList = byteOrderMark :: cs := by
      have hhead : s₂.toList.head? = some byteOrderMark := of_decide_eq_true hmark
      cases hs : s₂.toList with
      | nil =>
          rw [hs] at hhead
          cases hhead
      | cons c cs =>
          rw [hs] at hhead
          cases hhead
          exact ⟨cs, rfl⟩
    obtain ⟨l, ls, hl⟩ := lines_mark cs
    refine linesStmts_refused (l := byteOrderMark :: l) ?_ rfl
    rw [hcs, hl]
    simp

end Toml
