import Mathlib.Data.List.Basic

/-!
# Json

JSON texts: how a text is taken apart into tokens, and which tokens a value is
written with.

The reader is a state machine (`step`).  A string token is never longer than the
characters it was read from, and it is shorter if one of them is not plain
(`region`): so a text that is put between quotation marks as it is comes back
only if it is plain.
-/

namespace Json

/-! ## tokens -/

/-- A punctuation mark, a string, or a number or literal. -/
inductive Token
  | punct (c : Char)
  | str (s : List Char)
  | word (w : List Char)
deriving DecidableEq

/-- A part of a string: a character, or what `\uXXXX` stands for. -/
inductive Piece
  | char (c : Char)
  | code (n : Nat)

/-- The character of a code unit by itself; half of a pair is no character. -/
def ofCode (n : Nat) : Char := if n.isValidChar then Char.ofNat n else Char.ofNat 0xfffd

/-- The characters of a string: two halves of a pair make one. -/
def join : List Piece → List Char
  | [] => []
  | .char c :: ps => c :: join ps
  | .code n :: .code m :: ps =>
      if 0xd800 ≤ n ∧ n < 0xdc00 ∧ 0xdc00 ≤ m ∧ m < 0xe000 then
        Char.ofNat (0x10000 + (n - 0xd800) * 0x400 + (m - 0xdc00)) :: join ps
      else ofCode n :: join (.code m :: ps)
  | .code n :: ps => ofCode n :: join ps

/-- Where a reader is: between tokens, with the word it has begun, in a string,
behind a backslash, or in `\uXXXX` with so many digits to come. -/
inductive Mode
  | between (word : List Char)
  | string (pieces : List Piece)
  | escape (pieces : List Piece)
  | unicode (pieces : List Piece) (left value : Nat)

def isBlank (c : Char) : Bool := c = ' ' || c = '\t' || c = '\n' || c = '\r'

def isPunct (c : Char) : Bool := c ∈ ['\x7b', '\x7d', '[', ']', ':', ',']

/-- What a backslash makes of a character. -/
def escaped : Char → Option Char
  | '"' => some '"'
  | '\\' => some '\\'
  | '/' => some '/'
  | 'b' => some (Char.ofNat 8)
  | 'f' => some (Char.ofNat 12)
  | 'n' => some '\n'
  | 'r' => some '\r'
  | 't' => some '\t'
  | _ => none

def hexValue (c : Char) : Option Nat :=
  ['0', '1', '2', '3', '4', '5', '6', '7', '8', '9', 'a', 'b', 'c', 'd', 'e', 'f'].idxOf? c.toLower

/-- An exponent, or nothing. -/
def isExponent : List Char → Bool
  | [] => true
  | c :: cs =>
      let digits := match cs with
        | '+' :: ds => ds
        | '-' :: ds => ds
        | ds => ds
      (c = 'e' || c = 'E') && digits ≠ [] && digits.all Char.isDigit

/-- A fraction, or none, and an exponent. -/
def isFraction : List Char → Bool
  | '.' :: cs => cs.takeWhile Char.isDigit ≠ [] && isExponent (cs.dropWhile Char.isDigit)
  | cs => isExponent cs

def isNumber (cs : List Char) : Bool :=
  let digits := match cs with
    | '-' :: ds => ds
    | ds => ds
  match digits with
  | '0' :: cs => isFraction cs
  | cs => cs.takeWhile Char.isDigit ≠ [] && isFraction (cs.dropWhile Char.isDigit)

/-- The token of a word that is over. -/
def wordToken (w : List Char) : Option (List Token) :=
  if w = [] then some []
  else if w = ['t', 'r', 'u', 'e'] ∨ w = ['f', 'a', 'l', 's', 'e'] ∨ w = ['n', 'u', 'l', 'l'] ∨
    isNumber w then some [.word w]
  else none

/-- What is read with one more character. -/
def step : Mode → Char → Option (List Token × Mode)
  | .between w, c =>
      if c = '"' then (wordToken w).map fun ts => (ts, .string [])
      else if isBlank c then (wordToken w).map fun ts => (ts, .between [])
      else if isPunct c then (wordToken w).map fun ts => (ts ++ [.punct c], .between [])
      else some ([], .between (w ++ [c]))
  | .string ps, c =>
      if c = '"' then some ([.str (join ps)], .between [])
      else if c = '\\' then some ([], .escape ps)
      else if c.toNat < 0x20 then none
      else some ([], .string (ps ++ [.char c]))
  | .escape ps, c =>
      if c = 'u' then some ([], .unicode ps 4 0)
      else (escaped c).map fun d => ([], .string (ps ++ [.char d]))
  | .unicode ps left n, c =>
      (hexValue c).map fun d =>
        if left ≤ 1 then ([], .string (ps ++ [.code (n * 16 + d)]))
        else ([], .unicode ps (left - 1) (n * 16 + d))

def run : Mode → List Char → Option (List Token × Mode)
  | m, [] => some ([], m)
  | m, c :: cs => do
      let (ts, m) ← step m c
      let (ts', m) ← run m cs
      pure (ts ++ ts', m)

/-- The tokens of a text. -/
def lex (text : List Char) : Option (List Token) := do
  let (ts, m) ← run (.between []) text
  match m with
  | .between w => (wordToken w).map (ts ++ ·)
  | _ => none

/-! ## values -/

/-- A value; a number or a literal is the word it is written as. -/
inductive Value
  | str (s : List Char)
  | word (w : List Char)
  | array (items : List Value)
  | object (members : List (List Char × Value))

mutual

/-- The tokens a value is written with. -/
def Value.tokens : Value → List Token
  | .str s => [.str s]
  | .word w => [.word w]
  | .array items => .punct '[' :: (itemTokens items ++ [.punct ']'])
  | .object members => .punct '\x7b' :: (memberTokens members ++ [.punct '\x7d'])

def itemTokens : List Value → List Token
  | [] => []
  | [v] => v.tokens
  | v :: vs => v.tokens ++ .punct ',' :: itemTokens vs

def memberTokens : List (List Char × Value) → List Token
  | [] => []
  | [(k, v)] => .str k :: .punct ':' :: v.tokens
  | (k, v) :: ms => .str k :: .punct ':' :: (v.tokens ++ .punct ',' :: memberTokens ms)

end

/-- A text is well formed and decodes to a value. -/
def Decodes (text : List Char) (v : Value) : Prop := lex text = some v.tokens

/-- What an object has under a key: of several, the last. -/
def member (k : List Char) (members : List (List Char × Value)) : Option Value :=
  members.reverse.lookup k

/-! ## reading on -/

/-- Reading one text after another. -/
theorem run_append (m : Mode) (a b : List Char) :
    run m (a ++ b) = (run m a).bind fun r => (run r.2 b).map fun r' => (r.1 ++ r'.1, r'.2) := by
  induction a generalizing m with
  | nil => cases h : run m b <;> simp [run, h]
  | cons c a ih =>
      rw [List.cons_append, run, run]
      cases hstep : step m c with
      | none => rfl
      | some r =>
          cases hrun : run r.2 a with
          | none => simp [ih, hrun]
          | some r' =>
              cases hrest : run r'.2 b <;> simp [ih, hrun, hrest]

/-- A character that stands for itself in a string. -/
def isPlain (c : Char) : Bool := c ≠ '"' && c ≠ '\\' && 0x20 ≤ c.toNat

/-- A plain character goes into the string that is read. -/
theorem step_plain {c : Char} (h : isPlain c) (ps : List Piece) :
    step (.string ps) c = some ([], .string (ps ++ [.char c])) := by
  simp only [isPlain, Bool.and_eq_true, decide_eq_true_eq] at h
  simp [step, h.1.1, h.1.2, Nat.not_lt.mpr h.2]

/-- So do any number of them. -/
theorem run_plain {cs : List Char} (h : cs.all isPlain) (ps : List Piece) :
    run (.string ps) cs = some ([], .string (ps ++ cs.map .char)) := by
  induction cs generalizing ps with
  | nil => simp [run]
  | cons c cs ih =>
      simp only [List.all_cons, Bool.and_eq_true] at h
      simp [run, step_plain h.1, ih h.2]

/-- Characters without escapes are the string. -/
@[simp] theorem join_char (cs : List Char) : join (cs.map .char) = cs := by
  induction cs with
  | nil => rfl
  | cons c cs ih => simp [join, ih]

/-- A string has no more characters than its pieces. -/
theorem length_join_le (ps : List Piece) : (join ps).length ≤ ps.length := by
  fun_induction join ps with
  | case1 => simp
  | case2 c ps ih => simpa using ih
  | case3 n m ps _ ih =>
      simp only [List.length_cons]
      omega
  | case4 n m ps _ ih => simpa using ih
  | case5 n ps _ ih => simpa using ih

/-! ## how long a string can be -/

/-- How many characters have been read of a string. -/
def weight : Mode → Nat
  | .between _ => 0
  | .string ps => ps.length
  | .escape ps => ps.length
  | .unicode ps _ _ => ps.length

/-- No word is read as a string. -/
theorem not_str_of_wordToken {w : List Char} {ts : List Token} (h : wordToken w = some ts)
    (s : List Char) : .str s ∉ ts := by
  unfold wordToken at h
  split_ifs at h <;> cases h <;> simp

/-- What one character adds; a string that ends with it had been read before. -/
theorem weight_step {m m' : Mode} {c : Char} {ts : List Token} (h : step m c = some (ts, m')) :
    weight m' ≤ weight m + 1 ∧ ∀ s, .str s ∈ ts → s.length ≤ weight m := by
  cases m with
  | between w =>
      rw [step] at h
      split_ifs at h
      · obtain ⟨ts', hword, heq⟩ := Option.map_eq_some_iff.mp h
        cases heq
        exact ⟨by simp [weight], fun s hs => absurd hs (not_str_of_wordToken hword s)⟩
      · obtain ⟨ts', hword, heq⟩ := Option.map_eq_some_iff.mp h
        cases heq
        exact ⟨by simp [weight], fun s hs => absurd hs (not_str_of_wordToken hword s)⟩
      · obtain ⟨ts', hword, heq⟩ := Option.map_eq_some_iff.mp h
        cases heq
        refine ⟨by simp [weight], fun s hs => ?_⟩
        simp only [List.mem_append, List.mem_singleton, reduceCtorEq, or_false] at hs
        exact absurd hs (not_str_of_wordToken hword s)
      · cases h
        simp [weight]
  | string ps =>
      rw [step] at h
      split_ifs at h
      · cases h
        simp [weight, length_join_le ps]
      · cases h
        simp [weight]
      · cases h
        simp [weight]
  | escape ps =>
      rw [step] at h
      split_ifs at h
      · cases h
        simp [weight]
      · obtain ⟨d, _, heq⟩ := Option.map_eq_some_iff.mp h
        cases heq
        simp [weight]
  | unicode ps left n =>
      obtain ⟨d, _, heq⟩ := Option.map_eq_some_iff.mp h
      split_ifs at heq <;> cases heq <;> simp [weight]

/-- A string that is read is no longer than the text read so far. -/
theorem weight_run {cs : List Char} {m m' : Mode} {ts : List Token}
    (h : run m cs = some (ts, m')) :
    weight m' ≤ weight m + cs.length ∧ ∀ s, .str s ∈ ts → s.length < weight m + cs.length := by
  induction cs generalizing m ts with
  | nil =>
      cases h
      simp
  | cons c cs ih =>
      simp only [run, Option.bind_eq_bind, Option.bind_eq_some_iff, Option.pure_def,
        Option.some.injEq, Prod.mk.injEq, Prod.exists] at h
      obtain ⟨ts₁, m₁, hstep, ts₂, m₂, hrun, rfl, rfl⟩ := h
      obtain ⟨hone, hstrs⟩ := weight_step hstep
      obtain ⟨hrest, hstrs'⟩ := ih hrun
      rw [List.length_cons]
      refine ⟨by omega, fun s hs => ?_⟩
      obtain hs | hs := List.mem_append.mp hs
      · have hlen := hstrs s hs
        omega
      · have hlen := hstrs' s hs
        omega

/-- A character that is not plain adds nothing. -/
theorem weight_step_of_not_plain {ps : List Piece} {m : Mode} {c : Char} {ts : List Token}
    (hc : ¬ isPlain c) (h : step (.string ps) c = some (ts, m)) : weight m ≤ ps.length := by
  rw [step] at h
  split_ifs at h with hquote hslash hcontrol
  · cases h
    simp [weight]
  · cases h
    simp [weight]
  · exact absurd (by simp [isPlain, hquote, hslash, Nat.not_lt.mp hcontrol]) hc

/-- A string that is read from a text in a string, which is still open behind it:
the text itself if that is plain, and a shorter one if it is not. -/
theorem region {cs s : List Char} {ps : List Piece} {ts : List Token}
    (h : run (.string []) cs = some (ts, .string ps)) (hs : s = join ps ∨ .str s ∈ ts) :
    if cs.all isPlain then s = cs else s.length < cs.length := by
  split
  · next hplain =>
      rw [run_plain hplain] at h
      cases h
      simpa using hs
  · next hplain =>
      obtain rfl | hs := hs
      · -- the text up to the first character that is not plain, and the rest
        obtain ⟨a, c, b, rfl, ha, hc⟩ :
            ∃ a c b, cs = a ++ c :: b ∧ a.all isPlain ∧ ¬ isPlain c := by
          have hsplit := List.takeWhile_append_dropWhile (p := isPlain) (l := cs)
          cases hdrop : cs.dropWhile isPlain with
          | nil =>
              rw [hdrop, List.append_nil] at hsplit
              rw [← hsplit] at hplain
              exact absurd List.all_takeWhile hplain
          | cons c b =>
              have hhead := List.head?_dropWhile_not isPlain cs
              rw [hdrop] at hhead
              exact ⟨cs.takeWhile isPlain, c, b, by rw [← hdrop, hsplit], List.all_takeWhile,
                by simpa using hhead⟩
        rw [run_append, run_plain ha] at h
        simp only [List.nil_append, Option.bind_some, run, Option.bind_eq_bind,
          Option.map_eq_some_iff, Option.bind_eq_some_iff, Option.pure_def, Option.some.injEq,
          Prod.mk.injEq, Prod.exists] at h
        obtain ⟨_, _, ⟨ts₁, m₁, hstep, ts₂, m₂, hrun, rfl, rfl⟩, rfl, rfl⟩ := h
        have hone := weight_step_of_not_plain hc hstep
        have hrest := (weight_run hrun).1
        have hjoin := length_join_le ps
        simp only [weight, List.length_map] at hone hrest
        simp only [List.length_append, List.length_cons]
        omega
      · simpa [weight] using (weight_run h).2 s hs

/-! ## tokens of a value -/

/-- Parts with commas between them. -/
def separated {α : Type} (f : α → List Token) : List α → List Token
  | [] => []
  | [a] => f a
  | a :: as => f a ++ .punct ',' :: separated f as

/-- What an object has of a member. -/
def memberPart (m : List Char × Value) : List Token := .str m.1 :: .punct ':' :: m.2.tokens

/-- The tokens of the items of a list. -/
theorem itemTokens_eq (vs : List Value) : itemTokens vs = separated Value.tokens vs := by
  fun_induction separated Value.tokens vs with
  | case1 => rw [itemTokens]
  | case2 v => rw [itemTokens]
  | case3 v vs hne ih =>
      rw [itemTokens, ih]
      exact hne

/-- The tokens of the members of an object. -/
theorem memberTokens_eq (ms : List (List Char × Value)) :
    memberTokens ms = separated memberPart ms := by
  fun_induction separated memberPart ms with
  | case1 => rw [memberTokens]
  | case2 m => rw [memberTokens, memberPart]
  | case3 m ms hne ih =>
      rw [memberTokens, ih, memberPart]
      · rfl
      · exact hne

/-- The tokens of one item are among those of all. -/
theorem mem_separated {α : Type} {f : α → List Token} {a : α} {t : Token} {as : List α}
    (ha : a ∈ as) (ht : t ∈ f a) : t ∈ separated f as := by
  fun_induction separated f as with
  | case1 => cases ha
  | case2 b =>
      obtain rfl := List.mem_singleton.mp ha
      exact ht
  | case3 b bs _ ih =>
      obtain rfl | ha := List.mem_cons.mp ha
      · simp [ht]
      · simp [ih ha]

/-- A string that an object has is one of its tokens. -/
theorem mem_tokens_of_member {k s : List Char} {members : List (List Char × Value)}
    (h : member k members = some (.str s)) : .str s ∈ (Value.object members).tokens := by
  have hmem : (k, .str s) ∈ members := by
    obtain ⟨l₁, l₂, hsplit, _⟩ := List.lookup_eq_some_iff.mp h
    rw [← List.mem_reverse, hsplit]
    simp
  have hpart : .str s ∈ separated memberPart members :=
    mem_separated hmem (by simp [memberPart, Value.tokens])
  simp [Value.tokens, memberTokens_eq, hpart]

/-- Parts are told apart by the comma or the bracket behind each of them. -/
theorem separated_inj {α : Type} {f : α → List Token} {close : Token} (hcomma : close ≠ .punct ',')
    (hhead : ∀ a, ∃ t ts, f a = t :: ts ∧ t ≠ close) {as bs : List α} {r r' : List Token}
    (hinj : ∀ a ∈ as, ∀ b r r', f a ++ r = f b ++ r' → a = b ∧ r = r')
    (h : separated f as ++ close :: r = separated f bs ++ close :: r') : as = bs ∧ r = r' := by
  have hcons (a : α) (as : List α) (r : List Token) : separated f (a :: as) ++ close :: r =
      f a ++ if as = [] then close :: r else .punct ',' :: (separated f as ++ close :: r) := by
    cases as <;> simp [separated]
  have hne (a : α) (rest r : List Token) : f a ++ rest ≠ close :: r := by
    obtain ⟨t, ts, hta, htc⟩ := hhead a
    simp [hta, htc]
  induction as generalizing bs with
  | nil =>
      cases bs with
      | nil => simpa [separated] using h
      | cons b bs =>
          rw [hcons] at h
          exact absurd h.symm (hne b _ r)
  | cons a as ih =>
      cases bs with
      | nil =>
          rw [hcons] at h
          exact absurd h (hne a _ r')
      | cons b bs =>
          rw [hcons, hcons] at h
          obtain ⟨rfl, hrest⟩ := hinj a List.mem_cons_self b _ _ h
          split_ifs at hrest with has hbs hbs
          · exact ⟨by rw [has, hbs], (List.cons.inj hrest).2⟩
          · exact absurd (List.cons.inj hrest).1 hcomma
          · exact absurd (List.cons.inj hrest).1.symm hcomma
          · obtain ⟨rfl, rfl⟩ := ih (fun a ha => hinj a (List.mem_cons_of_mem _ ha))
              (List.cons.inj hrest).2
            exact ⟨rfl, rfl⟩

/-- Induction over a value, with the hypothesis for what it has in it. -/
@[elab_as_elim]
theorem Value.parts_induction {P : Value → Prop} (str : ∀ s, P (.str s)) (word : ∀ w, P (.word w))
    (array : ∀ items, (∀ v ∈ items, P v) → P (.array items))
    (object : ∀ members : List (List Char × Value), (∀ m ∈ members, P m.2) → P (.object members))
    (v : Value) : P v := by
  refine @Value.rec P (fun items => ∀ v ∈ items, P v) (fun members => ∀ m ∈ members, P m.2)
    (fun m => P m.2) str word array object ?_ ?_ ?_ ?_ ?_ v
  · exact fun _ h => by cases h
  · intro head tail hhead htail
    exact List.forall_mem_cons.mpr ⟨hhead, htail⟩
  · exact fun _ h => by cases h
  · intro head tail hhead htail
    exact List.forall_mem_cons.mpr ⟨hhead, htail⟩
  · intro k v hv
    exact hv

/-- A value has a first token, which does not close a list. -/
theorem Value.tokens_head (v : Value) : ∃ t ts, v.tokens = t :: ts ∧ t ≠ .punct ']' := by
  cases v <;> simp [Value.tokens]

/-- The tokens of a value are those of no other, whatever follows them. -/
theorem Value.tokens_inj (v v' : Value) (r r' : List Token)
    (h : v.tokens ++ r = v'.tokens ++ r') : v = v' ∧ r = r' := by
  induction v using Value.parts_induction generalizing v' r r' with
  | str s => cases v' <;> simp_all [Value.tokens]
  | word w => cases v' <;> simp_all [Value.tokens]
  | array items ih =>
      cases v' with
      | array items' =>
          simp only [Value.tokens, itemTokens_eq, List.cons_append, List.append_assoc,
            List.nil_append, List.cons.injEq, true_and] at h
          obtain ⟨rfl, rfl⟩ := separated_inj (by decide) Value.tokens_head ih h
          exact ⟨rfl, rfl⟩
      | _ => simp [Value.tokens] at h
  | object members ih =>
      cases v' with
      | object members' =>
          simp only [Value.tokens, memberTokens_eq, List.cons_append, List.append_assoc,
            List.nil_append, List.cons.injEq, true_and] at h
          have hpart : ∀ m ∈ members, ∀ m' r r', memberPart m ++ r = memberPart m' ++ r' →
              m = m' ∧ r = r' := by
            intro m hm m' r r' heq
            simp only [memberPart, List.cons_append, List.cons.injEq, Token.str.injEq,
              true_and] at heq
            obtain ⟨hvalue, rfl⟩ := ih m hm m'.2 r r' heq.2
            exact ⟨Prod.ext heq.1 hvalue, rfl⟩
          obtain ⟨rfl, rfl⟩ := separated_inj (by decide) (by simp [memberPart]) hpart h
          exact ⟨rfl, rfl⟩
      | _ => simp [Value.tokens] at h

/-- A text decodes to one value. -/
theorem Decodes.unique {text : List Char} {v v' : Value} (h : Decodes text v)
    (h' : Decodes text v') : v = v' := by
  have heq : v.tokens ++ [] = v'.tokens ++ [] := by
    rw [List.append_nil, List.append_nil]
    exact Option.some.inj (h.symm.trans h')
  exact (Value.tokens_inj v v' [] [] heq).1

end Json
