import Zebrafish.Lib.Format
import Zebrafish.Lib.Number

/-!
# Net

Internet addresses, as `std::net` has them: their octets, and the text they
are printed as (`Display`) and read from (`FromStr`).  A printed IPv4 address
is read back (`parseIp_text`); a printed IPv6 address has at least two colons
(`two_le_count_text`), so it is never a host and a port.
-/

namespace Net

open Format (be16)

structure Ipv4Addr where
  a : UInt8
  b : UInt8
  c : UInt8
  d : UInt8
deriving DecidableEq, Repr

/-- Eight 16-bit segments. -/
structure Ipv6Addr where
  segments : List UInt16
  length_eq : segments.length = 8
deriving DecidableEq

inductive IpAddr
  | v4 (ip : Ipv4Addr)
  | v6 (ip : Ipv6Addr)
deriving DecidableEq

def Ipv4Addr.octets (ip : Ipv4Addr) : List UInt8 := [ip.a, ip.b, ip.c, ip.d]

def Ipv6Addr.octets (ip : Ipv6Addr) : List UInt8 := ip.segments.flatMap be16

/-- An IPv4 address has four bytes. -/
@[simp] theorem Ipv4Addr.length_octets (ip : Ipv4Addr) : ip.octets.length = 4 := rfl

/-- An IPv6 address has sixteen bytes. -/
@[simp] theorem Ipv6Addr.length_octets (ip : Ipv6Addr) : ip.octets.length = 16 := by
  have hlen : ∀ l : List UInt16, (l.flatMap be16).length = 2 * l.length := by
    intro l
    induction l with
    | nil => rfl
    | cons n l ih =>
        rw [List.flatMap_cons, List.length_append, ih, Format.length_be16, List.length_cons]
        omega
  rw [octets, hlen, ip.length_eq]

/-! ## text -/

/-- One number of a dotted address. -/
def octetText (n : UInt8) : List Char := n.toNat.repr.toList

/-- `Display` for `Ipv4Addr`. -/
def Ipv4Addr.text (ip : Ipv4Addr) : List Char := ['.'].intercalate (ip.octets.map octetText)

/-- A lower-case hexadecimal digit. -/
def hexChar (n : Fin 16) : Char := "0123456789abcdef".toList.getD n '0'

/-- One segment, without leading zeros. -/
def segmentText (n : UInt16) : List Char :=
  let digit (i : Nat) : Fin 16 := Fin.ofNat 16 (n.toNat / 16 ^ i)
  (([digit 3, digit 2, digit 1].dropWhile (· = 0)) ++ [digit 0]).map hexChar

def segmentsText (segments : List UInt16) : List Char :=
  [':'].intercalate (segments.map segmentText)

/-- A run of zero segments: where it starts and how long it is. -/
structure Run where
  start : Nat
  len : Nat

/-- The first of the longest runs of zeros; `i` counts segments and `current`
is the run before them. -/
def longestRun : List UInt16 → Nat → Run → Run → Run
  | [], _, _, longest => longest
  | segment :: segments, i, current, longest =>
      if segment = 0 then
        let current := ⟨if current.len = 0 then i else current.start, current.len + 1⟩
        longestRun segments (i + 1) current (if longest.len < current.len then current else longest)
      else longestRun segments (i + 1) ⟨0, 0⟩ longest

/-- The embedded address of an IPv4-mapped one. -/
def Ipv6Addr.toIpv4Mapped (ip : Ipv6Addr) : Option Ipv4Addr :=
  match ip.octets with
  | [0, 0, 0, 0, 0, 0, 0, 0, 0, 0, 255, 255, a, b, c, d] => some ⟨a, b, c, d⟩
  | _ => none

/-- `Display` for `Ipv6Addr`. -/
def Ipv6Addr.text (ip : Ipv6Addr) : List Char :=
  match ip.toIpv4Mapped with
  | some ipv4 => "::ffff:".toList ++ ipv4.text
  | none =>
      let run := longestRun ip.segments 0 ⟨0, 0⟩ ⟨0, 0⟩
      if 1 < run.len then
        segmentsText (ip.segments.take run.start) ++ [':', ':'] ++
          segmentsText (ip.segments.drop (run.start + run.len))
      else segmentsText ip.segments

/-- `Display` for `IpAddr`. -/
def IpAddr.text : IpAddr → List Char
  | .v4 ip => ip.text
  | .v6 ip => ip.text

/-- A number of a dotted address: one to three digits, no leading zero, at
most 255. -/
def parseOctet (cs : List Char) : Option UInt8 :=
  if cs.length ≤ 3 ∧ (cs.length = 1 ∨ cs.head? ≠ some '0') then
    (Rust.parseDigits cs).bind fun n => if n < 256 then some (UInt8.ofNat n) else none
  else none

/-- `Ipv4Addr::from_str`. -/
def parseIpv4 (cs : List Char) : Option Ipv4Addr :=
  match (cs.splitOn '.').mapM parseOctet with
  | some [a, b, c, d] => some ⟨a, b, c, d⟩
  | _ => none

def hexDigit (c : Char) : Option Nat :=
  if '0' ≤ c ∧ c ≤ '9' then some (c.toNat - '0'.toNat)
  else if 'a' ≤ c ∧ c ≤ 'f' then some (c.toNat - 'a'.toNat + 10)
  else if 'A' ≤ c ∧ c ≤ 'F' then some (c.toNat - 'A'.toNat + 10)
  else none

/-- A segment: one to four hexadecimal digits. -/
def parseSegment (cs : List Char) : Option UInt16 :=
  if cs ≠ [] ∧ cs.length ≤ 4 then
    (cs.mapM hexDigit).map fun ds => UInt16.ofNat (ds.foldl (fun n d => 16 * n + d) 0)
  else none

/-- Segments between colons; none from no text. -/
def parseSegments (cs : List Char) : Option (List UInt16) :=
  if cs = [] then some [] else (cs.splitOn ':').mapM parseSegment

/-- Segments between colons, the last two of which may be a dotted address. -/
def parseTail (cs : List Char) : Option (List UInt16) :=
  if cs = [] then some [] else
    let parts := cs.splitOn ':'
    match parts.getLast?.bind parseIpv4 with
    | some ip => do
        let front ← parts.dropLast.mapM parseSegment
        pure (front ++ [Format.ofBe16 ip.a ip.b, Format.ofBe16 ip.c ip.d])
    | none => parts.mapM parseSegment

/-- The text before and after the first double colon. -/
def splitDouble : List Char → Option (List Char × List Char)
  | ':' :: ':' :: cs => some ([], cs)
  | c :: cs => (splitDouble cs).map fun p => (c :: p.1, p.2)
  | [] => none

/-- Eight segments make an address. -/
def Ipv6Addr.ofSegments (segments : List UInt16) : Option Ipv6Addr :=
  if h : segments.length = 8 then some ⟨segments, h⟩ else none

/-- `Ipv6Addr::from_str`: a double colon stands for one or more zero segments. -/
def parseIpv6 (cs : List Char) : Option Ipv6Addr :=
  match splitDouble cs with
  | none => (parseTail cs).bind Ipv6Addr.ofSegments
  | some (before, after) => do
      let head ← parseSegments before
      let tail ← parseTail after
      if head.length + tail.length < 8 then
        Ipv6Addr.ofSegments
          (head ++ List.replicate (8 - head.length - tail.length) 0 ++ tail)
      else none

/-- `IpAddr::from_str`. -/
def parseIp (cs : List Char) : Option IpAddr :=
  match parseIpv4 cs with
  | some ip => some (.v4 ip)
  | none => (parseIpv6 cs).map .v6

example : parseIp "2606:4700:4700::1111".toList =
      some (.v6 ⟨[0x2606, 0x4700, 0x4700, 0, 0, 0, 0, 0x1111], rfl⟩) ∧
    (Ipv6Addr.text ⟨[0x2606, 0x4700, 0x4700, 0, 0, 0, 0, 0x1111], rfl⟩) =
      "2606:4700:4700::1111".toList ∧
    parseIp "::ffff:1.2.3.4".toList = some (.v6 ⟨[0, 0, 0, 0, 0, 0xffff, 0x102, 0x304], rfl⟩) ∧
    parseIp "1:::2".toList = none ∧ parseIp "01.2.3.4".toList = none := by
  decide +kernel

/-! ## what is printed -/

/-- A byte is written in digits. -/
theorem isDigit_of_mem_octetText {n : UInt8} {c : Char} (h : c ∈ octetText n) : c.isDigit :=
  List.all_eq_true.mp (Rust.isDigit_repr n.toNat) c h

/-- A byte is read back from its text. -/
theorem parseOctet_octetText (n : UInt8) : parseOctet (octetText n) = some n := by
  have hall : ∀ k : Fin 256, parseOctet (octetText (UInt8.ofNat k)) = some (UInt8.ofNat k) := by
    decide +kernel
  have hn := hall ⟨n.toNat, n.toNat_lt⟩
  simpa using hn

/-- An IPv4 address is read back from its text. -/
theorem parseIpv4_text (ip : Ipv4Addr) : parseIpv4 ip.text = some ip := by
  have hdot : ∀ cs ∈ ip.octets.map octetText, '.' ∉ cs := by
    intro cs hcs hmem
    obtain ⟨n, _, rfl⟩ := List.mem_map.mp hcs
    exact absurd (isDigit_of_mem_octetText hmem) (by decide)
  rw [parseIpv4, Ipv4Addr.text, List.splitOn_intercalate '.' hdot (by simp [Ipv4Addr.octets])]
  simp [Ipv4Addr.octets, parseOctet_octetText]

/-- A printed IPv4 address is read back. -/
theorem parseIp_text (ip : Ipv4Addr) : parseIp ip.text = some (.v4 ip) := by
  rw [parseIp, parseIpv4_text]

/-- Joining adds the separator only. -/
theorem mem_intercalate {x c : Char} {ls : List (List Char)} (h : c ∈ [x].intercalate ls) :
    c = x ∨ ∃ l ∈ ls, c ∈ l := by
  induction ls with
  | nil => cases h
  | cons l ls ih =>
      by_cases hnil : ls = []
      · subst hnil
        rw [List.intercalate_singleton] at h
        exact Or.inr ⟨l, List.mem_cons_self, h⟩
      · rw [List.intercalate_cons_of_ne_nil hnil] at h
        rcases List.mem_append.mp h with h | h
        · rcases List.mem_append.mp h with h | h
          · exact Or.inr ⟨l, List.mem_cons_self, h⟩
          · exact Or.inl (List.mem_singleton.mp h)
        · rcases ih h with rfl | ⟨l', hl', hc⟩
          · exact Or.inl rfl
          · exact Or.inr ⟨l', List.mem_cons_of_mem l hl', hc⟩

/-- There is a separator between any two of the texts. -/
theorem length_le_count_intercalate (x : Char) (ls : List (List Char)) :
    ls.length ≤ ([x].intercalate ls).count x + 1 := by
  induction ls with
  | nil => exact Nat.zero_le _
  | cons l ls ih =>
      by_cases hnil : ls = []
      · subst hnil
        exact Nat.le_add_left 1 _
      · rw [List.intercalate_cons_of_ne_nil hnil, List.count_append, List.count_append,
          List.count_singleton_self, List.length_cons]
        omega

/-- A printed IPv4 address is digits and dots. -/
theorem mem_ipv4_text {ip : Ipv4Addr} {c : Char} (h : c ∈ ip.text) : c = '.' ∨ c.isDigit := by
  rcases mem_intercalate h with rfl | ⟨l, hl, hc⟩
  · exact Or.inl rfl
  · obtain ⟨n, _, rfl⟩ := List.mem_map.mp hl
    exact Or.inr (isDigit_of_mem_octetText hc)

theorem not_mem_segmentText {c : Char} (hc : ∀ n, hexChar n ≠ c) (n : UInt16) :
    c ∉ segmentText n := by
  intro h
  obtain ⟨d, _, hd⟩ := List.mem_map.mp h
  exact hc d hd

/-- The text of an IPv6 address has no brackets. -/
theorem bracket_not_mem_segmentsText (segments : List UInt16) :
    '[' ∉ segmentsText segments := by
  intro h
  rcases mem_intercalate h with h | ⟨l, hl, hc⟩
  · cases h
  · obtain ⟨n, _, rfl⟩ := List.mem_map.mp hl
    exact not_mem_segmentText (by decide) n hc

/-- A printed IPv6 address has no bracket. -/
theorem bracket_not_mem_text (ip : Ipv6Addr) : '[' ∉ ip.text := by
  unfold Ipv6Addr.text
  split
  · next ipv4 _ =>
      intro h
      rcases List.mem_append.mp h with h | h
      · exact absurd h (by decide)
      · rcases mem_ipv4_text h with h | h
        · cases h
        · cases h
  · have hsegs := bracket_not_mem_segmentsText
    dsimp only
    split
    · simp [hsegs]
    · exact hsegs _

/-- A printed IPv6 address has at least two colons. -/
theorem two_le_count_text (ip : Ipv6Addr) : 2 ≤ ip.text.count ':' := by
  unfold Ipv6Addr.text
  split
  · next ipv4 _ =>
      have hlit : "::ffff:".toList.count ':' = 3 := by decide
      rw [List.count_append, hlit]
      omega
  · dsimp only
    split
    · have hdouble : [':', ':'].count ':' = 2 := by decide
      rw [List.count_append, List.count_append, hdouble]
      omega
    · have hcount := length_le_count_intercalate ':' (ip.segments.map segmentText)
      rw [List.length_map, ip.length_eq] at hcount
      unfold segmentsText
      omega

end Net
