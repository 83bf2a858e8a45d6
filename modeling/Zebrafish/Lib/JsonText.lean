import Mathlib.Data.List.TakeWhile
import Zebrafish.Lib.Json
import Zebrafish.Lib.Number

/-!
# JsonText

How JSON values are written, on one line or with a line for each part, and that
they are read back (`decodes_print`).

A text `Reads` as tokens where the reader makes these tokens of it; a
punctuation mark between two texts puts theirs together (`Reads.punct`), and
blanks around a text change nothing.  A value written on one line has no line
break in it (`oneLine_compact`), so lines can be told apart.
-/

namespace Json

/-! ## writing -/

def hexDigit (n : Nat) : Char :=
  ['0', '1', '2', '3', '4', '5', '6', '7', '8', '9', 'a', 'b', 'c', 'd', 'e', 'f'].getD n '0'

/-- A character of a string, escaped where it has to be. -/
def escapeChar (c : Char) : List Char :=
  if c = '"' then ['\\', '"']
  else if c = '\\' then ['\\', '\\']
  else if c = '\n' then ['\\', 'n']
  else if c = '\r' then ['\\', 'r']
  else if c = '\t' then ['\\', 't']
  else if c = Char.ofNat 8 then ['\\', 'b']
  else if c = Char.ofNat 12 then ['\\', 'f']
  else if c.toNat < 0x20 then
    ['\\', 'u', '0', '0', hexDigit (c.toNat / 16), hexDigit (c.toNat % 16)]
  else [c]

def quote (s : List Char) : List Char := '"' :: (s.flatMap escapeChar ++ ['"'])

/-- On one line without blanks, or with a line for each part. -/
inductive Style
  | compact
  | pretty
deriving DecidableEq

/-- What is in front of a part. -/
def gap : Style → Nat → List Char
  | .compact, _ => []
  | .pretty, depth => '\n' :: List.replicate (2 * depth) ' '

/-- What is behind a key. -/
def colon : Style → List Char
  | .compact => []
  | .pretty => [' ']

mutual

def Value.print (style : Style) : Nat → Value → List Char
  | _, .str s => quote s
  | _, .word w => w
  | depth, .array items =>
      if items.isEmpty then ['[', ']']
      else '[' :: (printItems style (depth + 1) items ++ gap style depth ++ [']'])
  | depth, .object members =>
      if members.isEmpty then ['\x7b', '\x7d']
      else '\x7b' :: (printMembers style (depth + 1) members ++ gap style depth ++ ['\x7d'])

def printItems (style : Style) : Nat → List Value → List Char
  | _, [] => []
  | depth, v :: vs =>
      gap style depth ++ v.print style depth ++
        if vs.isEmpty then [] else ',' :: printItems style depth vs

def printMembers (style : Style) : Nat → List (List Char × Value) → List Char
  | _, [] => []
  | depth, (k, v) :: ms =>
      gap style depth ++ quote k ++ ':' :: (colon style ++ v.print style depth) ++
        if ms.isEmpty then [] else ',' :: printMembers style depth ms

end

mutual

/-- Its words are numbers and literals. -/
def Value.Valid : Value → Prop
  | .str _ => True
  | .word w => wordToken w = some [.word w] ∧ w.all (fun c => c ≠ '"' && !isBlank c && !isPunct c)
  | .array items => ValidItems items
  | .object members => ValidMembers members

def ValidItems : List Value → Prop
  | [] => True
  | v :: vs => v.Valid ∧ ValidItems vs

def ValidMembers : List (List Char × Value) → Prop
  | [] => True
  | (_, v) :: ms => v.Valid ∧ ValidMembers ms

end

/-- A list is valid if its items are. -/
theorem validItems_iff {items : List Value} : ValidItems items ↔ ∀ v ∈ items, v.Valid := by
  induction items with
  | nil => simp [ValidItems]
  | cons v vs ih => simp [ValidItems, ih]

/-- An object is valid if the values of its members are. -/
theorem validMembers_iff {members : List (List Char × Value)} :
    ValidMembers members ↔ ∀ m ∈ members, m.2.Valid := by
  induction members with
  | nil => simp [ValidMembers]
  | cons m ms ih =>
      obtain ⟨k, v⟩ := m
      simp [ValidMembers, ih]

/-! ## reading -/

/-- A text reads as some tokens, the last of which may still be a word. -/
def Reads (text : List Char) (ts : List Token) : Prop :=
  ∃ front w back, run (.between []) text = some (front, .between w) ∧
    wordToken w = some back ∧ ts = front ++ back

variable {a b cs : List Char} {ts ts' : List Token} {c : Char}

/-- The tokens of a text are what it reads as. -/
theorem lex_eq_some_iff : lex a = some ts ↔ Reads a ts := by
  unfold lex Reads
  cases hrun : run (.between []) a with
  | none => simp
  | some r =>
      obtain ⟨front, m⟩ := r
      cases m <;> simp [eq_comm]

@[simp] theorem reads_nil : Reads [] [] := ⟨[], [], [], rfl, rfl, rfl⟩

/-- A punctuation mark ends what is before it. -/
theorem Reads.punct (ha : Reads a ts) (hb : Reads b ts') (hc : isPunct c = true) :
    Reads (a ++ c :: b) (ts ++ .punct c :: ts') := by
  obtain ⟨front, w, back, hrun, hword, rfl⟩ := ha
  obtain ⟨front', w', back', hrun', hword', rfl⟩ := hb
  have hquote : c ≠ '"' := by
    rintro rfl
    simp [isPunct] at hc
  have hblank : isBlank c = false := by
    simp only [isPunct, decide_eq_true_eq, List.mem_cons, List.not_mem_nil, or_false] at hc
    rcases hc with rfl | rfl | rfl | rfl | rfl | rfl <;> rfl
  refine ⟨front ++ (back ++ .punct c :: front'), w', back', ?_, hword', by simp⟩
  rw [run_append, hrun]
  simp [run, step, hquote, hblank, hc, hword, hrun']

/-- Blanks end it as well. -/
theorem Reads.blank (ha : Reads a ts) (hb : Reads b ts') (hc : isBlank c = true) :
    Reads (a ++ c :: b) (ts ++ ts') := by
  obtain ⟨front, w, back, hrun, hword, rfl⟩ := ha
  obtain ⟨front', w', back', hrun', hword', rfl⟩ := hb
  have hquote : c ≠ '"' := by
    rintro rfl
    simp [isBlank] at hc
  refine ⟨front ++ (back ++ front'), w', back', ?_, hword', by simp⟩
  rw [run_append, hrun]
  simp [run, step, hquote, hc, hword, hrun']

/-- Blanks in front are not read. -/
theorem Reads.blanks_left (hb : Reads b ts) (hcs : ∀ c ∈ cs, isBlank c = true) :
    Reads (cs ++ b) ts := by
  induction cs with
  | nil => exact hb
  | cons c cs ih =>
      obtain ⟨hc, hcs⟩ := List.forall_mem_cons.mp hcs
      exact reads_nil.blank (ih hcs) hc

/-- Blanks behind are not read. -/
theorem Reads.blanks_right (ha : Reads a ts) (hcs : ∀ c ∈ cs, isBlank c = true) :
    Reads (a ++ cs) ts := by
  cases cs with
  | nil => simpa using ha
  | cons c cs =>
      obtain ⟨hc, hcs⟩ := List.forall_mem_cons.mp hcs
      have hrest : Reads cs [] := by simpa using reads_nil.blanks_left hcs
      simpa using ha.blank hrest hc

/-! ### strings and words -/

/-- What is read of a character that was written. -/
def pieceOf (c : Char) : Piece :=
  if c.toNat < 0x20 ∧ c ∉ ['\n', '\r', '\t', Char.ofNat 8, Char.ofNat 12] then .code c.toNat
  else .char c

/-- A character is the one of its code. -/
theorem ofCode_toNat (c : Char) : ofCode c.toNat = c := by
  have hvalid : c.toNat.isValidChar := c.valid
  simp [ofCode, hvalid]

/-- The pieces of a text stand for it. -/
theorem join_pieceOf (cs : List Char) : join (cs.map pieceOf) = cs := by
  induction cs with
  | nil => rfl
  | cons c cs ih =>
      rw [List.map_cons]
      by_cases hc : c.toNat < 0x20 ∧ c ∉ ['\n', '\r', '\t', Char.ofNat 8, Char.ofNat 12]
      · rw [pieceOf, if_pos hc]
        cases hrest : cs.map pieceOf with
        | nil =>
            rw [hrest] at ih
            simp [join, ofCode_toNat, ← ih]
        | cons p ps =>
            rw [hrest] at ih
            cases p with
            | char d => simp [join, ofCode_toNat, ← ih]
            | code n =>
                have hlow : ¬ (0xd800 ≤ c.toNat ∧ c.toNat < 0xdc00 ∧ 0xdc00 ≤ n ∧ n < 0xe000) := by
                  omega
                rw [join, if_neg hlow, ofCode_toNat, ih]
      · rw [pieceOf, if_neg hc, join, ih]

/-- A digit is read back as its value. -/
theorem hexValue_hexDigit {n : Nat} (h : n < 16) : hexValue (hexDigit n) = some n := by
  have hall : ∀ i : Fin 16, hexValue (hexDigit i) = some i.val := by decide
  exact hall ⟨n, h⟩

/-- An escaped character is read back. -/
theorem run_escapeChar (c : Char) (ps : List Piece) :
    run (.string ps) (escapeChar c) = some ([], .string (ps ++ [pieceOf c])) := by
  unfold escapeChar
  split
  · next h => subst h; rfl
  split
  · next h => subst h; rfl
  split
  · next h => subst h; rfl
  split
  · next h => subst h; rfl
  split
  · next h => subst h; rfl
  split
  · next h => subst h; rfl
  split
  · next h => subst h; rfl
  split
  · next hn hr ht hb hf hlow =>
      have hhigh : hexValue (hexDigit (c.toNat / 16)) = some (c.toNat / 16) :=
        hexValue_hexDigit (by omega)
      have hlast : hexValue (hexDigit (c.toNat % 16)) = some (c.toNat % 16) :=
        hexValue_hexDigit (by omega)
      have hzero : hexValue '0' = some 0 := by decide
      have hcode : pieceOf c = .code c.toNat := by
        simp [pieceOf, hlow, hn, hr, ht, hb, hf]
      have hsum : c.toNat / 16 * 16 + c.toNat % 16 = c.toNat := by omega
      simp [run, step, hzero, hhigh, hlast, hcode, hsum]
  · next hquote hslash hn hr ht hb hf hlow =>
      simp [run, step, hquote, hslash, hlow, pieceOf]

/-- The escapes of a text are read as its pieces. -/
theorem run_escape (s : List Char) (ps : List Piece) :
    run (.string ps) (s.flatMap escapeChar) = some ([], .string (ps ++ s.map pieceOf)) := by
  induction s generalizing ps with
  | nil => simp [run]
  | cons c s ih =>
      rw [List.flatMap_cons, run_append, run_escapeChar]
      simp [ih]

/-- A text in quotation marks is read as one string. -/
theorem reads_quote (s : List Char) : Reads (quote s) [.str s] := by
  have hstart : step (.between []) '"' = some ([], .string []) := rfl
  have hend : step (.string (s.map pieceOf)) '"' = some ([.str s], .between []) := by
    simp [step, join_pieceOf]
  refine ⟨[.str s], [], [], ?_, rfl, rfl⟩
  simp [quote, run, hstart, run_append, run_escape, hend]

/-- A word is read as one token. -/
theorem run_word {w : List Char} (h : w.all fun c => c ≠ '"' && !isBlank c && !isPunct c)
    (start : List Char) : run (.between start) w = some ([], .between (start ++ w)) := by
  induction w generalizing start with
  | nil => simp [run]
  | cons c w ih =>
      simp only [List.all_cons, Bool.and_eq_true, decide_eq_true_eq, Bool.not_eq_true'] at h
      obtain ⟨⟨⟨hquote, hblank⟩, hpunct⟩, hw⟩ := h
      have hrest := ih (by simpa using hw) (start ++ [c])
      simp [run, step, hquote, hblank, hpunct, hrest]

/-! ### values -/

theorem blank_gap (style : Style) (depth : Nat) : ∀ c ∈ gap style depth, isBlank c = true := by
  cases style with
  | compact => simp [gap]
  | pretty =>
      intro c hc
      simp only [gap, List.mem_cons, List.mem_replicate] at hc
      rcases hc with rfl | ⟨-, rfl⟩ <;> rfl

theorem blank_colon (style : Style) : ∀ c ∈ colon style, isBlank c = true := by
  cases style with
  | compact => simp [colon]
  | pretty =>
      intro c hc
      rw [List.mem_singleton.mp hc]
      rfl

/-- The items of a list, with commas between them. -/
theorem reads_printItems {style : Style} {depth : Nat} {items : List Value}
    (h : ∀ v ∈ items, Reads (v.print style depth) v.tokens) :
    Reads (printItems style depth items) (itemTokens items) := by
  induction items with
  | nil => simp [printItems, itemTokens]
  | cons v vs ih =>
      obtain ⟨hv, hvs⟩ := List.forall_mem_cons.mp h
      have hfirst := hv.blanks_left (blank_gap style depth)
      cases vs with
      | nil => simpa [printItems, itemTokens] using hfirst
      | cons v' vs => simpa [printItems, itemTokens] using hfirst.punct (c := ',') (ih hvs) rfl

/-- A member of an object. -/
theorem reads_member {style : Style} {depth : Nat} {m : List Char × Value}
    (h : Reads (m.2.print style depth) m.2.tokens) :
    Reads (gap style depth ++ quote m.1 ++ ':' :: (colon style ++ m.2.print style depth))
      (.str m.1 :: .punct ':' :: m.2.tokens) :=
  ((reads_quote m.1).blanks_left (blank_gap style depth)).punct
    (h.blanks_left (blank_colon style)) rfl

/-- The members of an object, with commas between them. -/
theorem reads_printMembers {style : Style} {depth : Nat} {members : List (List Char × Value)}
    (h : ∀ m ∈ members, Reads (m.2.print style depth) m.2.tokens) :
    Reads (printMembers style depth members) (memberTokens members) := by
  induction members with
  | nil => simp [printMembers, memberTokens]
  | cons m ms ih =>
      obtain ⟨k, v⟩ := m
      obtain ⟨hm, hms⟩ := List.forall_mem_cons.mp h
      have hfirst := reads_member hm
      cases ms with
      | nil => simpa [printMembers, memberTokens] using hfirst
      | cons m' ms =>
          simpa [printMembers, memberTokens] using hfirst.punct (c := ',') (ih hms) rfl

/-- What is printed is read as the tokens of the value. -/
theorem reads_print (style : Style) (depth : Nat) {v : Value} (hv : v.Valid) :
    Reads (v.print style depth) v.tokens := by
  induction v using Value.parts_induction generalizing depth with
  | str s => simpa [Value.print, Value.tokens] using reads_quote s
  | word w =>
      refine ⟨[], w, [.word w], ?_, hv.1, rfl⟩
      simpa [Value.print] using run_word hv.2 []
  | array items ih =>
      have hitems : Reads (printItems style (depth + 1) items) (itemTokens items) :=
        reads_printItems fun v hin => ih v hin (depth + 1) (validItems_iff.mp hv v hin)
      rw [Value.print]
      split
      · next hempty =>
          rw [List.isEmpty_iff.mp hempty]
          exact (reads_nil.punct reads_nil rfl).punct (c := ']') reads_nil rfl
      · have hopen := reads_nil.punct (c := '[') (hitems.blanks_right (blank_gap style depth)) rfl
        simpa [Value.tokens] using hopen.punct (c := ']') reads_nil rfl
  | object members ih =>
      have hmembers : Reads (printMembers style (depth + 1) members) (memberTokens members) :=
        reads_printMembers fun m hin => ih m hin (depth + 1) (validMembers_iff.mp hv m hin)
      rw [Value.print]
      split
      · next hempty =>
          rw [List.isEmpty_iff.mp hempty]
          exact (reads_nil.punct reads_nil rfl).punct (c := '\x7d') reads_nil rfl
      · have hopen :=
          reads_nil.punct (c := '\x7b') (hmembers.blanks_right (blank_gap style depth)) rfl
        simpa [Value.tokens] using hopen.punct (c := '\x7d') reads_nil rfl

/-- A written value is read back. -/
theorem decodes_print (style : Style) {v : Value} (hv : v.Valid) : Decodes (v.print style 0) v :=
  lex_eq_some_iff.mpr (reads_print style 0 hv)

/-! ### lines -/

theorem hexDigit_ne_newline (n : Nat) : hexDigit n ≠ '\n' := by
  rw [hexDigit, List.getD_eq_getElem?_getD]
  cases hn : ['0', '1', '2', '3', '4', '5', '6', '7', '8', '9', 'a', 'b', 'c', 'd', 'e', 'f'][n]?
  · simp
  · have hall : ['0', '1', '2', '3', '4', '5', '6', '7', '8', '9', 'a', 'b', 'c', 'd', 'e',
        'f'].all (· != '\n') = true := rfl
    simpa using List.all_eq_true.mp hall _ (List.mem_of_getElem? hn)

/-- A string takes one line. -/
theorem oneLine_quote (s : List Char) : '\n' ∉ quote s := by
  have hchar : ∀ c, '\n' ∉ escapeChar c := by
    intro c
    unfold escapeChar
    repeat' split
    all_goals simp_all [(hexDigit_ne_newline _).symm, eq_comm]
  simp [quote, hchar]

/-- So do items, in compact style. -/
theorem oneLine_printItems {depth : Nat} {items : List Value}
    (h : ∀ v ∈ items, '\n' ∉ v.print .compact depth) :
    '\n' ∉ printItems .compact depth items := by
  induction items with
  | nil => simp [printItems]
  | cons v vs ih =>
      obtain ⟨hv, hvs⟩ := List.forall_mem_cons.mp h
      rw [printItems]
      split <;> simp [gap, hv, ih hvs]

/-- So do members. -/
theorem oneLine_printMembers {depth : Nat} {members : List (List Char × Value)}
    (h : ∀ m ∈ members, '\n' ∉ m.2.print .compact depth) :
    '\n' ∉ printMembers .compact depth members := by
  induction members with
  | nil => simp [printMembers]
  | cons m ms ih =>
      obtain ⟨k, v⟩ := m
      obtain ⟨hm, hms⟩ := List.forall_mem_cons.mp h
      rw [printMembers]
      split <;> simp [gap, colon, oneLine_quote, hm, ih hms]

/-- On one line, a value is on one line. -/
theorem oneLine_compact (depth : Nat) {v : Value} (hv : v.Valid) :
    '\n' ∉ v.print .compact depth := by
  induction v using Value.parts_induction generalizing depth with
  | str s => simpa [Value.print] using oneLine_quote s
  | word w =>
      intro hin
      have hblank := List.all_eq_true.mp hv.2 _ hin
      simp [isBlank] at hblank
  | array items ih =>
      have hitems : '\n' ∉ printItems .compact (depth + 1) items :=
        oneLine_printItems fun v hin => ih v hin (depth + 1) (validItems_iff.mp hv v hin)
      rw [Value.print]
      split <;> simp [gap, hitems]
  | object members ih =>
      have hmembers : '\n' ∉ printMembers .compact (depth + 1) members :=
        oneLine_printMembers fun m hin => ih m hin (depth + 1) (validMembers_iff.mp hv m hin)
      rw [Value.print]
      split <;> simp [gap, hmembers]

/-! ### numbers and literals -/

/-- No number but zero starts with a zero. -/
theorem head?_toDigits_ne {n : Nat} (h : 0 < n) : (Nat.toDigits 10 n).head? ≠ some '0' := by
  induction n using Nat.strongRecOn with
  | ind n ih =>
      by_cases hlt : n < 10
      · have hall : ∀ i : Fin 10, 0 < i.val → i.val.digitChar ≠ '0' := by decide
        rw [Nat.toDigits_of_lt_base hlt]
        simpa using hall ⟨n, hlt⟩ h
      · rw [Nat.toDigits_of_base_le (by decide) (Nat.not_lt.mp hlt)]
        have hfirst := ih (n / 10) (by omega) (by omega)
        cases hdigits : Nat.toDigits 10 (n / 10) with
        | nil => exact absurd hdigits Nat.toDigits_ne_nil
        | cons c cs =>
            rw [hdigits] at hfirst
            simpa using hfirst

theorem not_isBlank_of_isDigit {c : Char} (h : c.isDigit) :
    c ≠ '"' ∧ isBlank c = false ∧ isPunct c = false := by
  rw [Char.isDigit, Bool.and_eq_true, decide_eq_true_eq, decide_eq_true_eq] at h
  refine ⟨?_, ?_, ?_⟩
  · rintro rfl
    exact absurd h (by decide)
  · cases hblank : isBlank c with
    | false => rfl
    | true =>
        simp only [isBlank, Bool.or_eq_true, decide_eq_true_eq] at hblank
        rcases hblank with ((rfl | rfl) | rfl) | rfl <;> exact absurd h (by decide)
  · cases hpunct : isPunct c with
    | false => rfl
    | true =>
        simp only [isPunct, decide_eq_true_eq, List.mem_cons, List.not_mem_nil, or_false] at hpunct
        rcases hpunct with rfl | rfl | rfl | rfl | rfl | rfl <;> exact absurd h (by decide)

/-- Digits make a number, unless they begin with a zero that is not all. -/
theorem isNumber_of_isDigit {c : Char} {cs : List Char} (hdigits : (c :: cs).all Char.isDigit)
    (hzero : c ≠ '0') : isNumber (c :: cs) = true := by
  have hall := List.all_eq_true.mp hdigits
  have hsign : c ≠ '-' := by
    rintro rfl
    exact absurd (hall _ List.mem_cons_self) (by decide)
  have htake : (c :: cs).takeWhile Char.isDigit = c :: cs :=
    List.takeWhile_eq_self_iff.mpr hall
  have hdrop : (c :: cs).dropWhile Char.isDigit = [] := List.dropWhile_eq_nil_iff.mpr hall
  unfold isNumber
  split
  · next heq => exact absurd (List.cons.inj heq).1 hsign
  · dsimp only
    split
    · next heq => exact absurd (List.cons.inj heq).1 hzero
    · rw [htake, hdrop]
      rfl

/-- A natural number is written as JSON has it. -/
theorem isNumber_repr (n : Nat) : isNumber n.repr.toList = true := by
  have hdigits := Rust.isDigit_repr n
  cases n with
  | zero => decide
  | succ n =>
      have hhead := head?_toDigits_ne (Nat.succ_pos n)
      have hne : Nat.toDigits 10 (n + 1) ≠ [] := Nat.toDigits_ne_nil
      rw [← Nat.toList_repr] at hhead hne
      generalize (n + 1).repr.toList = cs at hdigits hhead hne
      cases cs with
      | nil => exact absurd rfl hne
      | cons c cs => exact isNumber_of_isDigit hdigits fun hc => hhead (by rw [hc]; rfl)

def Value.nat (n : Nat) : Value := .word n.repr.toList

def Value.bool : Bool → Value
  | true => .word ['t', 'r', 'u', 'e']
  | false => .word ['f', 'a', 'l', 's', 'e']

theorem valid_nat (n : Nat) : (Value.nat n).Valid := by
  have hne : n.repr.toList ≠ [] := by
    rw [Nat.toList_repr]
    exact Nat.toDigits_ne_nil
  refine ⟨?_, List.all_eq_true.mpr fun c hc => ?_⟩
  · rw [wordToken, if_neg hne, if_pos (.inr (.inr (.inr (isNumber_repr n))))]
  · have hdigit := List.all_eq_true.mp (Rust.isDigit_repr n) c hc
    simpa [and_assoc] using not_isBlank_of_isDigit hdigit

theorem valid_bool (b : Bool) : (Value.bool b).Valid := by
  cases b <;> exact ⟨rfl, rfl⟩

/-- Different numbers are different values. -/
theorem nat_injective {m n : Nat} (h : Value.nat m = .nat n) : m = n := by
  have hread := Rust.parseDigits_repr m
  rw [Value.word.inj h, Rust.parseDigits_repr] at hread
  exact (Option.some.inj hread).symm

/-- Different truth values are different values. -/
theorem bool_injective {a b : Bool} (h : Value.bool a = .bool b) : a = b := by
  cases a <;> cases b <;> first | rfl | cases h

/-! ## writers -/

/-- A function that writes values so that they are read back. -/
structure Writer where
  text : Value → List Char
  decodes : ∀ v : Value, v.Valid → Decodes (text v) v

/-- A writer that puts a value on one line. -/
structure LineWriter extends Writer where
  oneLine : ∀ v : Value, v.Valid → '\n' ∉ text v

def compactWriter : LineWriter where
  text := Value.print .compact 0
  decodes _ hv := decodes_print .compact hv
  oneLine _ hv := oneLine_compact 0 hv

def prettyWriter : Writer where
  text := Value.print .pretty 0
  decodes _ hv := decodes_print .pretty hv

/-- Values that are written alike are the same. -/
theorem Writer.text_inj (W : Writer) {v v' : Value} (hv : v.Valid) (hv' : v'.Valid)
    (h : W.text v = W.text v') : v = v' := by
  have hread := W.decodes v hv
  rw [h] at hread
  exact hread.unique (W.decodes v' hv')

end Json
