import Zebrafish.Lib.Lines

/-!
# Toml.Grammar

The grammar of TOML documents, short of values.

A document is expressions with newlines between them: key/value pairs, headers,
comments, blank lines.  What a value looks like is left open; a value may go
over several lines, so an expression may, too.  `Expression.inv` says how one
can begin, which is enough to see that some texts are no documents.
-/

namespace Toml.Grammar

def isWs (c : Char) : Bool := c = ' ' || c = '\t'

def Ws (cs : List Char) : Prop := ∀ c ∈ cs, isWs c

def isBareKeyChar (c : Char) : Bool := c.isAlphanum || c = '-' || c = '_'

/-- A character on a line: no control character but the tab. -/
def isInline (c : Char) : Bool := c = '\t' || (' ' ≤ c && c ≠ Char.ofNat 127)

def isHex (c : Char) : Bool :=
  c.isDigit || ('a' ≤ c && c ≤ 'f') || ('A' ≤ c && c ≤ 'F')

/-- What stands between double quotes. -/
inductive BasicChars : List Char → Prop
  | nil : BasicChars []
  | plain {c : Char} {cs : List Char} : isInline c → c ≠ '"' → c ≠ '\\' → BasicChars cs →
      BasicChars (c :: cs)
  | escape {c : Char} {cs : List Char} : c ∈ ['"', '\\', 'b', 'e', 'f', 'n', 'r', 't'] →
      BasicChars cs → BasicChars ('\\' :: c :: cs)
  | number {c : Char} {digits cs : List Char} :
      (c, digits.length) ∈ [('x', 2), ('u', 4), ('U', 8)] → (∀ d ∈ digits, isHex d) →
        BasicChars cs → BasicChars ('\\' :: c :: (digits ++ cs))

inductive SimpleKey : List Char → Prop
  | bare {c : Char} {cs : List Char} : (∀ d ∈ c :: cs, isBareKeyChar d) → SimpleKey (c :: cs)
  | basic {cs : List Char} : BasicChars cs → SimpleKey ('"' :: cs ++ ['"'])
  | literal {cs : List Char} : (∀ c ∈ cs, isInline c ∧ c ≠ '\'') → SimpleKey ('\'' :: cs ++ ['\''])

/-- Keys with dots between them. -/
inductive Key : List Char → Prop
  | simple {k : List Char} : SimpleKey k → Key k
  | dotted {k w w' ks : List Char} : SimpleKey k → Ws w → Ws w' → Key ks →
      Key (k ++ w ++ '.' :: (w' ++ ks))

/-- Nothing, or a comment to the end of the line. -/
inductive Comment : List Char → Prop
  | none : Comment []
  | some {cs : List Char} : (∀ c ∈ cs, isInline c) → Comment ('#' :: cs)

inductive Newline : List Char → Prop
  | lf : Newline ['\n']
  | crlf : Newline ['\r', '\n']

/-- What may stand between the brackets and items of an array. -/
inductive Gap : List Char → Prop
  | nil : Gap []
  | ws {c : Char} {cs : List Char} : isWs c → Gap cs → Gap (c :: cs)
  | line {com nl cs : List Char} : Comment com → Newline nl → Gap cs → Gap (com ++ nl ++ cs)

/-- An expression without the blanks before it, and the comment behind it. -/
inductive Content (val : List Char → Prop) : List Char → Prop
  | blank : Content val []
  | keyval {k w w' v : List Char} : Key k → Ws w → Ws w' → val v →
      Content val (k ++ w ++ '=' :: (w' ++ v))
  | table {k w w' : List Char} : Ws w → Key k → Ws w' → Content val ('[' :: (w ++ k ++ w' ++ [']']))
  | arrayTable {k w w' : List Char} : Ws w → Key k → Ws w' →
      Content val ('[' :: '[' :: (w ++ k ++ w' ++ [']', ']']))

inductive Expression (val : List Char → Prop) : List Char → Prop
  | mk {w content w' com : List Char} : Ws w → Content val content → Ws w' → Comment com →
      Expression val (w ++ content ++ w' ++ com)

/-- A document, with its expressions. -/
inductive Document (val : List Char → Prop) : List (List Char) → List Char → Prop
  | one {e : List Char} : Expression val e → Document val [e] e
  | more {e nl rest : List Char} {es : List (List Char)} : Expression val e → Newline nl →
      Document val es rest → Document val (e :: es) (e ++ nl ++ rest)

/-! ## what is on a line -/

/-- How a key begins. -/
def startsKey (c : Char) : Bool := isBareKeyChar c || c = '"' || c = '\''

/-- A string is within its line. -/
theorem BasicChars.not_mem_newline {cs : List Char} (h : BasicChars cs) : '\n' ∉ cs := by
  induction h with
  | nil => simp
  | @plain c cs hc _ _ _ ih =>
      have hne : c ≠ '\n' := by
        rintro rfl
        cases hc
      simp [Ne.symm hne, ih]
  | @escape c cs hc _ ih =>
      have hne : c ≠ '\n' := by
        rintro rfl
        simp at hc
      simp [Ne.symm hne, ih]
  | @number c digits cs hc hdigits _ ih =>
      have hne : c ≠ '\n' := by
        rintro rfl
        simp at hc
      have hnone : '\n' ∉ digits := by
        intro hmem
        cases hdigits _ hmem
      simp [Ne.symm hne, hnone, ih]

theorem ws_nil : Ws [] := by simp [Ws]

/-- So is white space. -/
theorem Ws.not_mem_newline {cs : List Char} (h : Ws cs) : '\n' ∉ cs := by
  intro hmem
  cases h _ hmem

/-- So is a key. -/
theorem SimpleKey.not_mem_newline {k : List Char} (h : SimpleKey k) : '\n' ∉ k := by
  cases h with
  | @bare c cs hall =>
      intro hmem
      cases hall _ hmem
  | basic hcs => simp [hcs.not_mem_newline]
  | @literal cs hall =>
      have hnone : '\n' ∉ cs := by
        intro hmem
        cases (hall _ hmem).1
      simp [hnone]

/-- So is a dotted key. -/
theorem Key.not_mem_newline {k : List Char} (h : Key k) : '\n' ∉ k := by
  induction h with
  | simple hk => exact hk.not_mem_newline
  | dotted hk hw hw' _ ih =>
      simp [hk.not_mem_newline, hw.not_mem_newline, hw'.not_mem_newline, ih]

/-- So is a comment. -/
theorem Comment.not_mem_newline {cs : List Char} (h : Comment cs) : '\n' ∉ cs := by
  cases h with
  | none => simp
  | @some cs hall =>
      have hnone : '\n' ∉ cs := by
        intro hmem
        cases hall _ hmem
      simp [hnone]

/-! ## how an expression begins -/

/-- A key has a first character. -/
theorem Key.head {k : List Char} (h : Key k) : ∃ c t, k = c :: t ∧ startsKey c := by
  have hsimple : ∀ {k}, SimpleKey k → ∃ c t, k = c :: t ∧ startsKey c := by
    intro k hk
    cases hk with
    | @bare c cs hall => exact ⟨c, cs, rfl, by simp [startsKey, hall c List.mem_cons_self]⟩
    | basic _ => exact ⟨_, _, rfl, rfl⟩
    | literal _ => exact ⟨_, _, rfl, rfl⟩
  cases h with
  | simple hk => exact hsimple hk
  | dotted hk _ _ _ =>
      obtain ⟨c, t, rfl, hc⟩ := hsimple hk
      exact ⟨c, _, rfl, hc⟩

variable {val : List Char → Prop} {es : List (List Char)}

/-- The first character of an expression. -/
theorem Expression.head {c : Char} {e : List Char} (h : Expression val (c :: e)) :
    isWs c ∨ startsKey c ∨ c = '[' ∨ c = '#' := by
  obtain ⟨x, hx⟩ : ∃ x, c :: e = x := ⟨_, rfl⟩
  rw [hx] at h
  cases h with
  | @mk w content w' com hw hcontent hw' hcom =>
      cases w with
      | cons d w =>
          cases hx
          exact Or.inl (hw _ List.mem_cons_self)
      | nil =>
          cases hcontent with
          | blank =>
              cases w' with
              | cons d w' =>
                  cases hx
                  exact Or.inl (hw' _ List.mem_cons_self)
              | nil =>
                  cases hcom with
                  | none => cases hx
                  | some _ =>
                      cases hx
                      exact Or.inr (Or.inr (Or.inr rfl))
          | keyval hk _ _ _ =>
              obtain ⟨d, t, rfl, hd⟩ := hk.head
              cases hx
              exact Or.inr (Or.inl hd)
          | table _ _ _ =>
              cases hx
              exact Or.inr (Or.inr (Or.inl rfl))
          | arrayTable _ _ _ =>
              cases hx
              exact Or.inr (Or.inr (Or.inl rfl))

/-- An expression that begins with a bracket is a header, on one line. -/
theorem Expression.of_bracket {e : List Char} (h : Expression val ('[' :: e)) :
    '\n' ∉ e ∧ ∃ w c t, e = w ++ c :: t ∧ Ws w ∧ (startsKey c ∨ c = '[') := by
  obtain ⟨x, hx⟩ : ∃ x, '[' :: e = x := ⟨_, rfl⟩
  rw [hx] at h
  cases h with
  | @mk w content w' com hw hcontent hw' hcom =>
      cases w with
      | cons d w =>
          cases hx
          cases hw _ List.mem_cons_self
      | nil =>
          cases hcontent with
          | blank =>
              cases w' with
              | cons d w' =>
                  cases hx
                  cases hw' _ List.mem_cons_self
              | nil =>
                  cases hcom with
                  | none => cases hx
                  | some _ => cases hx
          | keyval hk _ _ _ =>
              obtain ⟨d, t, rfl, hd⟩ := hk.head
              cases hx
              cases hd
          | @table k v v' hv hk hv' =>
              have hnone := hk.not_mem_newline
              obtain ⟨c, t, rfl, hc⟩ := hk.head
              have he : e = v ++ c :: (t ++ (v' ++ ']' :: (w' ++ com))) := by simpa using hx
              rw [he]
              refine ⟨?_, v, c, _, rfl, hv, Or.inl hc⟩
              simp only [List.mem_cons, not_or] at hnone
              simp [hv.not_mem_newline, hnone, hv'.not_mem_newline, hw'.not_mem_newline,
                hcom.not_mem_newline]
          | @arrayTable k v v' hv hk hv' =>
              have he : e = '[' :: (v ++ (k ++ (v' ++ ']' :: ']' :: (w' ++ com)))) := by
                simpa using hx
              rw [he]
              refine ⟨?_, [], '[', _, rfl, ws_nil, Or.inr rfl⟩
              simp [hv.not_mem_newline, hk.not_mem_newline, hv'.not_mem_newline,
                hw'.not_mem_newline, hcom.not_mem_newline]

/-! ## documents -/

/-- A document has a first line. -/
theorem Document.first {text : List Char} (h : Document val es text) :
    ∃ e rest, Expression val e ∧ text = e ++ rest ∧
      (rest = [] ∨ ∃ nl more es', Newline nl ∧ rest = nl ++ more ∧ Document val es' more) := by
  cases h with
  | one he => exact ⟨_, [], he, by simp, Or.inl rfl⟩
  | @more e nl rest es he hnl hrest =>
      exact ⟨e, nl ++ rest, he, by simp, Or.inr ⟨nl, rest, es, hnl, rfl, hrest⟩⟩

/-- Behind a line with a header there is a document again. -/
theorem Document.rest {line tail : List Char} (hline : '\n' ∉ line)
    (hend : (line ++ [']']).head? = some '[')
    (h : Document val es (line ++ ']' :: '\n' :: tail)) : ∃ es', Document val es' tail := by
  obtain ⟨e, rest, he, htext, hrest⟩ := h.first
  have hsplit : line ++ ']' :: '\n' :: tail = (line ++ [']']) ++ '\n' :: tail := by simp
  have hwhole : '\n' ∉ line ++ [']'] := by simp [hline]
  -- the first expression is on the first line
  have hnone : '\n' ∉ e := by
    cases e with
    | nil => simp
    | cons c e =>
        have hc : c = '[' := by
          rw [hsplit] at htext
          have hhead := congrArg List.head? htext
          rw [List.head?_append, hend] at hhead
          simpa using hhead.symm
        subst hc
        simpa using he.of_bracket.1
  rcases hrest with rfl | ⟨nl, more, es', hnl, rfl, hmore⟩
  · rw [List.append_nil] at htext
    rw [← htext] at hnone
    simp at hnone
  · cases hnl with
    | lf =>
        rw [hsplit] at htext
        obtain ⟨_, htail⟩ := Shell.append_cons_inj hwhole hnone htext
        exact ⟨es', htail ▸ hmore⟩
    | crlf =>
        have hcr : e ++ (['\r', '\n'] ++ more) = (e ++ ['\r']) ++ '\n' :: more := by simp
        rw [hsplit, hcr] at htext
        obtain ⟨hfirst, _⟩ := Shell.append_cons_inj hwhole (by simp [hnone]) htext
        have hlast := congrArg List.getLast? hfirst
        simp at hlast

/-- No document begins with a character that begins no expression. -/
theorem not_document_of_head {c : Char} {text : List Char} (hws : isWs c = false)
    (hkey : startsKey c = false) (hc : c ∉ ['[', '#', '\n', '\r']) :
    ¬ Document val es (c :: text) := by
  intro h
  simp only [List.mem_cons, List.not_mem_nil, or_false, not_or] at hc
  obtain ⟨e, rest, he, htext, hrest⟩ := h.first
  cases e with
  | nil =>
      rcases hrest with rfl | ⟨nl, more, es', hnl, rfl, _⟩
      · cases htext
      · cases hnl with
        | lf => exact hc.2.2.1 (List.cons.inj htext).1
        | crlf => exact hc.2.2.2 (List.cons.inj htext).1
  | cons d e =>
      obtain ⟨rfl, _⟩ := List.cons.inj htext
      rcases he.head with h | h | h | h
      · rw [hws] at h
        cases h
      · rw [hkey] at h
        cases h
      · exact hc.1 h
      · exact hc.2.1 h

/-- Nor with a bracket that has no key behind it. -/
theorem not_document_of_bracket {w text : List Char} {c : Char} (hw : Ws w)
    (hws : isWs c = false) (hkey : startsKey c = false) (hc : c ≠ '[') :
    ¬ Document val es ('[' :: (w ++ c :: text)) := by
  intro h
  obtain ⟨e, rest, he, htext, hrest⟩ := h.first
  cases e with
  | nil =>
      rcases hrest with rfl | ⟨nl, more, es', hnl, rfl, _⟩
      · cases htext
      · cases hnl <;> cases htext
  | cons d e =>
      obtain ⟨rfl, hbehind⟩ := List.cons.inj htext
      obtain ⟨_, w', d, t, rfl, hw', hd⟩ := he.of_bracket
      -- both sides have their first character that is no blank
      have hdws : isWs d = false := by
        cases hisws : isWs d with
        | false => rfl
        | true =>
            simp only [isWs, Bool.or_eq_true, decide_eq_true_eq] at hisws
            rcases hisws with rfl | rfl <;> rcases hd with hd | hd <;> cases hd
      have hleft : ((w ++ c :: text).dropWhile isWs).head? = some c := by
        rw [List.dropWhile_append_of_pos hw]
        simp [hws]
      have hright : ((w' ++ d :: t ++ rest).dropWhile isWs).head? = some d := by
        rw [List.append_assoc, List.dropWhile_append_of_pos hw']
        simp [hdws]
      rw [show w ++ c :: text = w' ++ d :: t ++ rest from hbehind, hright] at hleft
      cases hleft
      rcases hd with hd | hd
      · rw [hkey] at hd
        cases hd
      · exact hc hd

/-- What comes first behind a gap is no key, unless something else begins with
one. -/
theorem Gap.first {gap : List Char} (h : Gap gap) (c : Char) (text : List Char) :
    ∃ w d t, gap ++ c :: text = w ++ d :: t ∧ Ws w ∧ (d = c ∨ d ∈ ['#', '\n', '\r']) := by
  induction h with
  | nil => exact ⟨[], c, text, rfl, ws_nil, Or.inl rfl⟩
  | @ws d cs hd _ ih =>
      obtain ⟨w, e, t, heq, hw, he⟩ := ih
      refine ⟨d :: w, e, t, by simp [heq], ?_, he⟩
      intro x hx
      rcases List.mem_cons.mp hx with rfl | hx
      · exact hd
      · exact hw x hx
  | @line com nl cs hcom hnl _ _ =>
      refine ⟨[], ?_⟩
      cases hcom with
      | none =>
          cases hnl with
          | lf => exact ⟨'\n', _, rfl, ws_nil, Or.inr (by simp)⟩
          | crlf => exact ⟨'\r', _, rfl, ws_nil, Or.inr (by simp)⟩
      | some _ => exact ⟨'#', _, rfl, ws_nil, Or.inr (by simp)⟩

end Toml.Grammar
