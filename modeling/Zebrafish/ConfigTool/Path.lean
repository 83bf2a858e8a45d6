import Mathlib.Algebra.GroupWithZero.Nat
import Zebrafish.Lib.Number
import Zebrafish.ConfigTool.Schema

/-!
# Zebrafish.ConfigTool.Path

Dotted key paths (`path.rs`), e.g. `wg[0].peers[1].public_key`: how they are
read, and how they are looked up in a configuration.
-/

namespace Zebrafish.ConfigTool

open Toml Rust

inductive Segment
  | field (name : String)
  | index (i : Nat)
deriving DecidableEq

/-- A parsed dotted key path. -/
structure KeyPath where
  segments : List Segment
  nonempty : segments ≠ []
deriving DecidableEq

/-! ## reading -/

/-- `char::is_whitespace`. -/
def isWhitespace (c : Char) : Bool :=
  let n := c.toNat
  (9 ≤ n && n ≤ 13) || n = 0x20 || n = 0x85 || n = 0xa0 || n = 0x1680 ||
    (0x2000 ≤ n && n ≤ 0x200a) || n = 0x2028 || n = 0x2029 || n = 0x202f || n = 0x205f ||
    n = 0x3000

/-- `str::trim`. -/
def trim (cs : List Char) : List Char :=
  ((cs.dropWhile isWhitespace).reverse.dropWhile isWhitespace).reverse

/-- Push the field collected so far, if there is one. -/
def pushField (segments : List Segment) (current : List Char) : List Segment :=
  if current.isEmpty then segments else segments ++ [.field (String.ofList current)]

/-- The loop of `KeyPath::parse`: the segments so far, the characters of the
current one, and whether it is an index. -/
def parseLoop : List Char → List Segment → List Char → Bool → Option (List Segment)
  | [], segments, current, inIndex =>
      if inIndex then none else some (pushField segments current)
  | c :: cs, segments, current, inIndex =>
      if c = '.' then
        if inIndex then none else parseLoop cs (pushField segments current) [] false
      else if c = '[' then
        if inIndex then none else parseLoop cs (pushField segments current) [] true
      else if c = ']' then
        if inIndex then
          match parseUsize current with
          | some i => parseLoop cs (segments ++ [.index i]) [] false
          | none => none
        else none
      else if inIndex then
        if c.isDigit then parseLoop cs segments (current ++ [c]) true else none
      else parseLoop cs segments (current ++ [c]) false

/-- `KeyPath::parse`. -/
def KeyPath.parse (s : String) : Option KeyPath :=
  let cs := trim s.toList
  if cs.isEmpty then none
  else
    match parseLoop cs [] [] false with
    | some (seg :: segs) => some ⟨seg :: segs, by simp⟩
    | _ => none

def KeyPath.section? (p : KeyPath) : Option String :=
  match p.segments.head? with
  | some (.field name) => some name
  | _ => none

/-! ## lookup -/

/-- `walk_segments`. -/
def walkSegments : List Segment → Value → Option Value
  | [], v => some v
  | .field name :: tail, .table entries =>
      (entries.lookup name).bind (walkSegments tail)
  | .index i :: tail, .array items => (items[i]?).bind (walkSegments tail)
  | _ :: _, _ => none

/-- `KeyPath::lookup`. -/
def KeyPath.lookup (p : KeyPath) (cfg : Config) : Option Value :=
  walkSegments p.segments cfg.view

example : (KeyPath.parse "wg[0].peers[1].public_key").map KeyPath.segments =
    some [.field "wg", .index 0, .field "peers", .index 1, .field "public_key"] := by
  decide +kernel

/-! ## types along a path -/

/-- The type of what is at a path. -/
def typeAt : List Segment → Ty → Option Ty
  | [], t => some t
  | .field k :: tail, .table fields => (fields.lookup k).bind fun f => typeAt tail f.2
  | .index _ :: tail, .array t => typeAt tail t
  | _ :: _, _ => none

/-- No struct of a type has two fields of one name. -/
def distinctFields (fields : List (String × Presence × Ty)) : Bool :=
  decide (fields.map Prod.fst).Nodup

/-- A property of all structs of a type is one of those at a path. -/
theorem every_typeAt {good : List (String × Presence × Ty) → Bool} {path : List Segment}
    {t t' : Ty} (h : t.every good) (hat : typeAt path t = some t') : t'.every good := by
  induction path generalizing t with
  | nil =>
      cases hat
      exact h
  | cons seg path ih =>
      cases seg with
      | field k =>
          cases t with
          | table fields =>
              obtain ⟨f, hf, hat⟩ := Option.bind_eq_some_iff.mp hat
              simp only [Ty.every, Bool.and_eq_true] at h
              exact ih (every_of_mem h.2 (Assoc.mem_of_lookup hf)) hat
          | _ => cases hat
      | index i =>
          cases t with
          | array t => exact ih (t := t) h hat
          | _ => cases hat

/-- What is written under a path has the type of the path. -/
theorem shaped_walk {good : List (String × Presence × Ty) → Bool}
    (hgood : ∀ fields, good fields → distinctFields fields) {path : List Segment} {t : Ty}
    {v w : Value} (hd : t.every good) (h : Shaped t v) (hw : walkSegments path v = some w) :
    ∃ t', typeAt path t = some t' ∧ Shaped t' w := by
  induction path generalizing t v with
  | nil =>
      cases hw
      exact ⟨t, rfl, h⟩
  | cons seg path ih =>
      cases t with
      | string =>
          obtain ⟨s, rfl⟩ := h
          cases seg <;> cases hw
      | boolean =>
          obtain ⟨b, rfl⟩ := h
          cases seg <;> cases hw
      | unsigned bits =>
          obtain ⟨n, rfl, _⟩ := h
          cases seg <;> cases hw
      | array t =>
          obtain ⟨items, rfl, hitems⟩ := h
          cases seg with
          | field k => cases hw
          | index i =>
              obtain ⟨x, hx, hw⟩ := Option.bind_eq_some_iff.mp hw
              exact ih hd (hitems x (List.mem_of_getElem? hx)) hw
      | table fields =>
          obtain ⟨l, rfl, hl⟩ := h
          cases seg with
          | index i => cases hw
          | field k =>
              simp only [Ty.every, Bool.and_eq_true] at hd
              obtain ⟨x, hx, hw⟩ := Option.bind_eq_some_iff.mp hw
              have hmem := mem_sortKeys.mp (Assoc.mem_of_lookup hx)
              obtain ⟨p, t, hf, hs⟩ := hl.mem hmem
              obtain ⟨t', hat, hs'⟩ := ih (every_of_mem hd.2 hf) hs hw
              refine ⟨t', ?_, hs'⟩
              simp [typeAt, Assoc.lookup_of_mem (of_decide_eq_true (hgood _ hd.1)) hf, hat]

/-! ## what a name and an index are read as -/

/-- A character that neither ends a field nor opens an index. -/
def isFieldChar (c : Char) : Bool := c ≠ '.' && c ≠ '[' && c ≠ ']'

/-- The characters of a field are gathered. -/
theorem parseLoop_field {cs : List Char} (h : cs.all isFieldChar) (rest : List Char)
    (segments : List Segment) (current : List Char) :
    parseLoop (cs ++ rest) segments current false =
      parseLoop rest segments (current ++ cs) false := by
  induction cs generalizing current with
  | nil => simp
  | cons c cs ih =>
      simp only [List.all_cons, Bool.and_eq_true] at h
      obtain ⟨hc, hcs⟩ := h
      simp only [isFieldChar, Bool.and_eq_true, decide_eq_true_eq] at hc
      obtain ⟨⟨hdot, hopen⟩, hclose⟩ := hc
      rw [List.cons_append, parseLoop]
      simp [hdot, hopen, hclose, ih hcs]

/-- So are the digits of an index. -/
theorem parseLoop_digits {cs : List Char} (h : cs.all Char.isDigit) (rest : List Char)
    (segments : List Segment) (current : List Char) :
    parseLoop (cs ++ rest) segments current true =
      parseLoop rest segments (current ++ cs) true := by
  induction cs generalizing current with
  | nil => simp
  | cons c cs ih =>
      simp only [List.all_cons, Bool.and_eq_true] at h
      obtain ⟨hc, hcs⟩ := h
      have hne : ∀ d, d.isDigit = false → c ≠ d := by
        rintro d hd rfl
        simp [hd] at hc
      rw [List.cons_append, parseLoop]
      simp [hne '.' (by decide), hne '[' (by decide), hne ']' (by decide), hc, ih hcs]

/-! ## names that are read as one field -/

/-- The characters that are in the fields of a path. -/
def fieldChars (segments : List Segment) : Nat :=
  (segments.map fun
    | .field name => name.length
    | .index _ => 0).sum

/-- A segment has the characters that were gathered. -/
theorem fieldChars_pushField (segments : List Segment) (current : List Char) :
    fieldChars (pushField segments current) = fieldChars segments + current.length := by
  unfold pushField
  cases current with
  | nil => simp
  | cons c cs =>
      simp [fieldChars]
      omega

/-- The fields of a path are made of characters of its text. -/
theorem fieldChars_parseLoop {cs : List Char} {segments out : List Segment} {current : List Char}
    {inIndex : Bool} (h : parseLoop cs segments current inIndex = some out) :
    fieldChars out ≤
      fieldChars segments + (if inIndex then 0 else current.length) + cs.countP isFieldChar := by
  induction cs generalizing segments current inIndex with
  | nil =>
      cases inIndex with
      | true => cases h
      | false =>
          cases h
          simp [fieldChars_pushField]
  | cons c cs ih =>
      rw [parseLoop] at h
      rw [List.countP_cons]
      cases inIndex with
      | true =>
          simp only [if_true] at h ⊢
          split at h
          · cases h
          split at h
          · cases h
          split at h
          · split at h
            · have hle := ih h
              simp [fieldChars] at hle ⊢
              omega
            · cases h
          split at h
          · have hle := ih h
            simp only [if_true] at hle
            omega
          · cases h
      | false =>
          simp only [Bool.false_eq_true, if_false] at h ⊢
          split at h
          · have hle := ih h
            simp [fieldChars_pushField] at hle
            omega
          split at h
          · have hle := ih h
            simp [fieldChars_pushField] at hle
            omega
          split at h
          · cases h
          · next hdot hopen hclose =>
              have hle := ih h
              have hfield : isFieldChar c = true := by simp [isFieldChar, hdot, hopen, hclose]
              simp [hfield] at hle ⊢
              omega

/-- `trim` takes nothing off these characters. -/
def Trimmed (cs : List Char) : Prop :=
  cs.dropWhile isWhitespace = cs ∧ cs.reverse.dropWhile isWhitespace = cs.reverse

/-- A trimmed text is trimmed to itself. -/
theorem Trimmed.trim_eq {cs : List Char} (h : Trimmed cs) : trim cs = cs := by
  rw [trim, h.1, h.2, List.reverse_reverse]

/-- A text that does not get shorter is trimmed. -/
theorem trimmed_of_length {cs : List Char} (h : cs.length ≤ (trim cs).length) : Trimmed cs := by
  have hfront := List.dropWhile_sublist (l := cs) isWhitespace
  have hback := List.dropWhile_sublist (l := (cs.dropWhile isWhitespace).reverse) isWhitespace
  have hle := hback.length_le
  rw [trim, List.length_reverse] at h
  rw [List.length_reverse] at hle
  have hf := hfront.eq_of_length_le (by omega)
  rw [hf] at hback h hle
  exact ⟨hf, hback.eq_of_length_le (by rw [List.length_reverse]; omega)⟩

theorem dropWhile_append_of_eq {p : Char → Bool} {a : List Char} (h : a.dropWhile p = a)
    (hne : a ≠ []) (b : List Char) : (a ++ b).dropWhile p = a ++ b := by
  cases a with
  | nil => exact absurd rfl hne
  | cons c a =>
      have hc : p c = false := by
        cases hp : p c with
        | false => rfl
        | true =>
            have hle := (List.dropWhile_sublist (l := a) p).length_le
            rw [List.dropWhile_cons_of_pos hp] at h
            rw [h, List.length_cons] at hle
            omega
      rw [List.cons_append, List.dropWhile_cons_of_neg (by simp [hc])]

/-- What is between trimmed ends may be anything. -/
theorem Trimmed.append {a c : List Char} (ha : Trimmed a) (ha0 : a ≠ []) (hc : Trimmed c)
    (hc0 : c ≠ []) (b : List Char) : Trimmed (a ++ (b ++ c)) := by
  constructor
  · exact dropWhile_append_of_eq ha.1 ha0 _
  · rw [List.reverse_append, List.reverse_append, List.append_assoc]
    exact dropWhile_append_of_eq hc.2 (by simpa using hc0) _

/-- A name that is read as the single field of that name. -/
def IsName (s : String) : Prop :=
  (KeyPath.parse s).map KeyPath.segments = some [.field s]

/-- What is known of the characters of a name. -/
theorem IsName.chars {s : String} (h : IsName s) :
    s.toList ≠ [] ∧ Trimmed s.toList ∧ s.toList.all isFieldChar := by
  unfold IsName KeyPath.parse at h
  simp only at h
  split at h
  · cases h
  · next hne =>
      split at h
      · next seg segs hloop =>
          simp only [Option.map_some, Option.some.injEq, List.cons.injEq] at h
          obtain ⟨rfl, rfl⟩ := h
          -- every character of the text is one of the field
          have hle : s.toList.length ≤ (trim s.toList).countP isFieldChar := by
            rw [String.length_toList]
            simpa [fieldChars] using fieldChars_parseLoop hloop
          have hcount := List.countP_le_length (p := isFieldChar) (l := trim s.toList)
          have htrimmed := trimmed_of_length (hle.trans hcount)
          rw [htrimmed.trim_eq] at hle hcount hne
          refine ⟨by simpa using hne, htrimmed, ?_⟩
          exact List.all_eq_true.mpr (List.countP_eq_length.mp (Nat.le_antisymm hcount hle))
      · cases h

/-- The key of a field of an element of a list. -/
def elementKey (sec : String) (i : Nat) (name : String) : String :=
  sec ++ "[" ++ toString i ++ "]." ++ name

/-- The key of a field of a list element is parsed as meant. -/
theorem parse_elementKey {sec name : String} (hsec : IsName sec) (hname : IsName name) {i : Nat}
    (hi : i < 2 ^ 64) :
    (KeyPath.parse (elementKey sec i name)).map KeyPath.segments =
      some [.field sec, .index i, .field name] := by
  obtain ⟨hsec0, hsect, hsecc⟩ := hsec.chars
  obtain ⟨hname0, hnamet, hnamec⟩ := hname.chars
  have htext : (elementKey sec i name).toList =
      sec.toList ++ (('[' :: (i.repr.toList ++ [']', '.'])) ++ name.toList) := by
    simp [elementKey]
  have htrim := hsect.append hsec0 hnamet hname0 ('[' :: (i.repr.toList ++ [']', '.']))
  have hloop : parseLoop (elementKey sec i name).toList [] [] false =
      some [.field sec, .index i, .field name] := by
    rw [htext, parseLoop_field hsecc, List.nil_append, List.cons_append, parseLoop]
    simp only [if_false, if_true, Bool.false_eq_true, Char.reduceEq]
    rw [List.append_assoc, parseLoop_digits (isDigit_repr i), List.nil_append]
    simp only [List.cons_append, List.nil_append, parseLoop, if_true, Bool.false_eq_true,
      parseUsize_repr hi, if_false, Char.reduceEq]
    rw [← List.append_nil name.toList, parseLoop_field hnamec, parseLoop]
    simp [pushField, hsec0, hname0]
  rw [← htext] at htrim
  simp only [KeyPath.parse, htrim.trim_eq, hloop]
  rw [htext]
  simp

end Zebrafish.ConfigTool
