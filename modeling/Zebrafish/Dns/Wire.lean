import Zebrafish.Dns.Message

/-!
# Zebrafish.Dns.Wire

The DNS wire format without name compression, assembled from `Format`s, and
the `Hickory` codec it gives.  On messages whose names share no suffix the
bytes are those any DNS encoder writes; the decoder reads no compression
pointers.

`wire` is what the concrete runs of the resolver use, and it shows that the
properties asked of a codec can be had together: `roundTrips_wire`,
`namesDistinct_wire` and `idFirst_wire`.
-/

namespace Zebrafish.Dns.Wire

open Zebrafish.Dns
open Format

/-! ## names -/

/-- A label, behind its length byte. -/
def label : Format Label :=
  u8.counted8.view
    (fun bs => if h : 0 < bs.length ∧ bs.length ≤ 63 then some ⟨bs, h.1, h.2⟩ else none)
    (fun l => some l.bytes)
    (by
      intro bs l h
      cases h
      exact dif_pos ⟨l.pos, l.le⟩)

/-- An encoded label is its length byte and its bytes. -/
theorem label_put (l : Label) : label.put l = some (UInt8.ofNat l.bytes.length :: l.bytes) := by
  have hlt : l.bytes.length < 256 := by have := l.le; omega
  exact put_counted8_u8 hlt

/-- The length byte of a label is never the zero that ends a name. -/
theorem label_startsOff : StartsOff 0 label := by
  intro l b h
  have hpos := l.pos
  have hle := l.le
  refine ⟨UInt8.ofNat l.bytes.length, l.bytes, ?_, ?_⟩
  · exact (Option.some.inj ((label_put l).symm.trans h)).symm
  · intro h0
    have hn := congrArg UInt8.toNat h0
    simp at hn
    omega

/-- A name: its labels up to a zero byte. -/
def name : Format Name :=
  (terminated 0 label label_startsOff).view (fun ls => some ⟨ls⟩) (fun n => some n.labels)
    (by
      intro ls n h
      cases h
      rfl)

/-! ## records -/

def query : Format Query :=
  (name.seq (u16.seq u16)).view (fun p => some ⟨p.1, p.2.1, p.2.2⟩)
    (fun q => some (q.name, q.queryType, q.queryClass))
    (by
      intro p q h
      cases h
      rfl)

def record : Format Record :=
  (name.seq (u16.seq (u16.seq (u32.seq u8.counted16)))).view
    (fun p => some ⟨p.1, p.2.1, p.2.2.1, p.2.2.2.1, p.2.2.2.2⟩)
    (fun r => some (r.name, r.recordType, r.dnsClass, r.ttl, r.rdata))
    (by
      intro p r h
      cases h
      rfl)

/-! ## the header -/

/-- The flag word: QR, opcode, AA, TC, RD, RA, (Z,) AD, CD, RCODE. -/
def packFlags (h : Header) : Nat :=
  (match h.messageType with | .query => 0 | .response => 32768) + h.opCode.val * 2048 +
    h.authoritative.toNat * 1024 + h.truncated.toNat * 512 + h.recursionDesired.toNat * 256 +
    h.recursionAvailable.toNat * 128 + h.authenticData.toNat * 32 +
    h.checkingDisabled.toNat * 16 + h.responseCode.val

def unpackFlags (id : UInt16) (n : Nat) : Header where
  id := id
  messageType := if n / 32768 % 2 = 1 then .response else .query
  opCode := ⟨n / 2048 % 16, Nat.mod_lt _ (by decide)⟩
  authoritative := n / 1024 % 2 = 1
  truncated := n / 512 % 2 = 1
  recursionDesired := n / 256 % 2 = 1
  recursionAvailable := n / 128 % 2 = 1
  authenticData := n / 32 % 2 = 1
  checkingDisabled := n / 16 % 2 = 1
  responseCode := ⟨n % 16, Nat.mod_lt _ (by decide)⟩

/-- The flags take 16 bits. -/
theorem packFlags_lt (h : Header) : packFlags h < 65536 := by
  have h1 := h.opCode.isLt
  have h2 := h.responseCode.isLt
  have h3 := h.authoritative.toNat_le
  have h4 := h.truncated.toNat_le
  have h5 := h.recursionDesired.toNat_le
  have h6 := h.recursionAvailable.toNat_le
  have h7 := h.authenticData.toNat_le
  have h8 := h.checkingDisabled.toNat_le
  unfold packFlags
  cases h.messageType <;> simp only [] <;> omega

/-- A bit of the flag word reads back as the flag it was made from. -/
theorem decide_bit_eq {b : Bool} {n : Nat} (h : n = b.toNat) : decide (n = 1) = b := by
  subst h
  cases b <;> rfl

/-- The flags are read back. -/
theorem unpackFlags_packFlags (h : Header) : unpackFlags h.id (packFlags h) = h := by
  obtain ⟨id, mt, op, aa, tc, rd, ra, ad, cd, rc⟩ := h
  have h1 := op.isLt
  have h2 := rc.isLt
  have h3 := aa.toNat_le
  have h4 := tc.toNat_le
  have h5 := rd.toNat_le
  have h6 := ra.toNat_le
  have h7 := ad.toNat_le
  have h8 := cd.toNat_le
  cases mt <;> simp only [packFlags, unpackFlags, Header.mk.injEq, true_and, Fin.ext_iff]
  · refine ⟨if_neg (by omega), by omega, decide_bit_eq (by omega), decide_bit_eq (by omega),
      decide_bit_eq (by omega), decide_bit_eq (by omega), decide_bit_eq (by omega),
      decide_bit_eq (by omega), by omega⟩
  · refine ⟨if_pos (by omega), by omega, decide_bit_eq (by omega), decide_bit_eq (by omega),
      decide_bit_eq (by omega), decide_bit_eq (by omega), decide_bit_eq (by omega),
      decide_bit_eq (by omega), by omega⟩

def header : Format Header :=
  (u16.seq u16).view (fun p => some (unpackFlags p.1 p.2.toNat))
    (fun h => some (h.id, UInt16.ofNat (packFlags h)))
    (by
      intro p h hp
      cases hp
      have hn : (UInt16.ofNat (packFlags h)).toNat = packFlags h := by
        rw [UInt16.toNat_ofNat']
        exact Nat.mod_eq_of_lt (packFlags_lt h)
      simp only [hn, unpackFlags_packFlags])

/-! ## messages -/

/-- The header, the four section counts, the four sections. -/
def sections : Format
    ((Header × UInt16 × UInt16 × UInt16 × UInt16) ×
      List Query × List Record × List Record × List Record) :=
  (header.seq (u16.seq (u16.seq (u16.seq u16)))).bind fun c =>
    (query.many c.2.1.toNat).seq ((record.many c.2.2.1.toNat).seq
      ((record.many c.2.2.2.1.toNat).seq (record.many c.2.2.2.2.toNat)))

def isOpt (r : Record) : Bool := r.recordType == RecordType.OPT

/-- At most one `OPT` record is lifted out of the additional section. -/
def splitAdditionals (ar : List Record) : Option (List Record × Option Record) :=
  match ar.filter isOpt with
  | [] => some (ar.filter (fun r => !isOpt r), none)
  | [r] => some (ar.filter (fun r => !isOpt r), some r)
  | _ => none

def joinAdditionals (additionals : List Record) (edns : Option Record) : Option (List Record) :=
  if additionals.all (fun r => !isOpt r) ∧ edns.all isOpt then
    some (additionals ++ edns.toList)
  else none

/-- The record of EDNS is taken out of the others again. -/
theorem splitAdditionals_joinAdditionals {additionals : List Record} {edns : Option Record}
    {ar : List Record} (h : joinAdditionals additionals edns = some ar) :
    splitAdditionals ar = some (additionals, edns) := by
  unfold joinAdditionals at h
  split at h
  · next hc =>
      obtain ⟨hall, he⟩ := hc
      cases h
      have hopt : additionals.filter isOpt = [] := by
        simpa [List.filter_eq_nil_iff] using hall
      have hnot : additionals.filter (fun r => !isOpt r) = additionals :=
        List.filter_eq_self.mpr (by simpa using hall)
      cases edns with
      | none => simp [splitAdditionals, hopt, hnot]
      | some r =>
          have hr : isOpt r = true := by simpa using he
          simp [splitAdditionals, hopt, hnot, hr]
  · contradiction

def message : Format Message :=
  sections.view
    (fun p => (splitAdditionals p.2.2.2.2).map fun a =>
      ⟨p.1.1, p.2.1, p.2.2.1, p.2.2.2.1, a.1, a.2⟩)
    (fun m => (joinAdditionals m.additionals m.edns).map fun ar =>
      ((m.header, UInt16.ofNat m.queries.length, UInt16.ofNat m.answers.length,
        UInt16.ofNat m.nameServers.length, UInt16.ofNat ar.length),
        m.queries, m.answers, m.nameServers, ar))
    (by
      intro p m h
      obtain ⟨ar, har, rfl⟩ := Option.map_eq_some_iff.mp h
      simp [splitAdditionals_joinAdditionals har])

/-! ## the text of a name -/

/-- Letters, digits, `-` and `_` stand for themselves. -/
def isPlain (b : UInt8) : Bool :=
  (48 ≤ b && b ≤ 57) || (65 ≤ b && b ≤ 90) || (97 ≤ b && b ≤ 122) || b == 45 || b == 95

/-- Any other byte is written as a backslash and three decimal digits. -/
def escapeByte (b : UInt8) : Bytes :=
  if isPlain b then [b] else [92, 48 + b / 100, 48 + b / 10 % 10, 48 + b % 10]

/-- Read one byte of a label's text. -/
def readEscaped : Bytes → Option (UInt8 × Bytes)
  | b :: rest =>
      if isPlain b then some (b, rest)
      else match rest with
        | x :: y :: z :: rest => some ((x - 48) * 100 + (y - 48) * 10 + (z - 48), rest)
        | _ => none
  | [] => none

/-- The three digits of a byte spell the byte. -/
theorem escape_digits (b : UInt8) :
    (48 + b / 100 - 48) * 100 + (48 + b / 10 % 10 - 48) * 10 + (48 + b % 10 - 48) = b := by
  have h : ∀ i : Fin 256, (48 + UInt8.ofFin i / 100 - 48) * 100 +
      (48 + UInt8.ofFin i / 10 % 10 - 48) * 10 + (48 + UInt8.ofFin i % 10 - 48) =
        UInt8.ofFin i := by
    decide +kernel
  exact h b.toFin

/-- A byte of a label's text. -/
def escaped : Format UInt8 where
  put b := some (escapeByte b)
  get := readEscaped
  get_put := by
    intro b s rest h
    cases h
    by_cases hb : isPlain b = true
    · simp [escapeByte, readEscaped, hb]
    · have h92 : isPlain 92 = false := by decide
      rw [escapeByte, if_neg hb]
      simp only [List.cons_append, List.nil_append, readEscaped, h92, Bool.false_eq_true, if_false,
        escape_digits]

/-- No byte's text starts with a given byte that is neither plain nor the
escape. -/
theorem escaped_startsOff {stop : UInt8} (h : isPlain stop = false) (h92 : stop ≠ 92) :
    StartsOff stop escaped := by
  intro b s hs
  cases hs
  by_cases hb : isPlain b = true
  · refine ⟨b, [], by simp [escapeByte, hb], ?_⟩
    rintro rfl
    rw [h] at hb
    cases hb
  · exact ⟨92, _, by simp only [escapeByte, hb]; rfl, h92.symm⟩

/-- A label's text, up to its dot. -/
def labelText : Format (List UInt8) :=
  terminated 46 escaped (escaped_startsOff (by decide) (by decide))

/-- The labels of a name, each ended by its dot. -/
def labelsText (ls : List Label) : Bytes :=
  ls.flatMap fun l => l.bytes.flatMap escapeByte ++ [46]

/-- The dotted form of a name; the root is a lone dot. -/
def nameText (n : Name) : Bytes :=
  match n.labels with
  | [] => [46]
  | ls => labelsText ls

/-- A label is written with escapes, and a dot. -/
theorem labelText_put (bs : Bytes) :
    labelText.put bs = some (bs.flatMap escapeByte ++ [46]) := by
  induction bs with
  | nil => rfl
  | cons b bs ih =>
      change putUntil 46 escaped bs = _ at ih
      change putUntil 46 escaped (b :: bs) = _
      rw [putUntil, ih]
      simp [escaped]

/-- A label's text never starts with `|`. -/
theorem labelText_startsOff : StartsOff 124 labelText := by
  intro bs s hs
  rw [labelText_put] at hs
  cases hs
  cases bs with
  | nil => exact ⟨46, [], rfl, by decide⟩
  | cons b bs =>
      have hoff : StartsOff 124 escaped := escaped_startsOff (by decide) (by decide)
      obtain ⟨x, xs, hx, hne⟩ := hoff b _ rfl
      exact ⟨x, xs ++ bs.flatMap escapeByte ++ [46], by simp [hx], hne⟩

/-- The labels' texts followed by `|` are a terminated list. -/
theorem putUntil_labelText (ls : List Label) :
    putUntil 124 labelText (ls.map Label.bytes) = some (labelsText ls ++ [124]) := by
  induction ls with
  | nil => rfl
  | cons l ls ih =>
      rw [List.map_cons, putUntil, ih, labelText_put]
      simp [labelsText]

/-- Different lists of labels have different texts. -/
theorem labelsText_inj {ls ls' : List Label} (h : labelsText ls = labelsText ls') :
    ls = ls' := by
  have h1 := putUntil_labelText ls
  have h2 := putUntil_labelText ls'
  rw [← h] at h2
  have hmap : ls.map Label.bytes = ls'.map Label.bytes :=
    put_inj (terminated 124 labelText labelText_startsOff) h1 h2
  have hinj : Function.Injective Label.bytes := by
    rintro ⟨bs, _, _⟩ ⟨bs', _, _⟩ rfl
    rfl
  exact List.map_injective_iff.mpr hinj hmap

/-- No label writes a lone dot: labels are not empty. -/
theorem labelsText_ne_dot (l : Label) (ls : List Label) : labelsText (l :: ls) ≠ [46] := by
  obtain ⟨bs, hpos, hle⟩ := l
  cases bs with
  | nil => simp at hpos
  | cons b bs =>
      have hoff : StartsOff 46 escaped := escaped_startsOff (by decide) (by decide)
      obtain ⟨x, xs, hx, hne⟩ := hoff b _ rfl
      intro h
      simp [labelsText, hx, hne] at h

/-- So have different names. -/
theorem nameText_inj {n n' : Name} (h : nameText n = nameText n') : n = n' := by
  obtain ⟨ls⟩ := n
  obtain ⟨ls'⟩ := n'
  cases ls with
  | nil =>
      cases ls' with
      | nil => rfl
      | cons l' ls' => exact absurd h.symm (labelsText_ne_dot l' ls')
  | cons l ls =>
      cases ls' with
      | nil => exact absurd h (labelsText_ne_dot l ls)
      | cons l' ls' => exact congrArg Name.mk (labelsText_inj h)

/-! ## the codec -/

/-- The uncompressed codec. -/
def wire : Hickory where
  fromVec b := (message.get b).map Prod.fst
  toVec := message.put
  nameText := nameText

/-- What is written is read back. -/
theorem roundTrips_wire : wire.RoundTrips := by
  intro m b h
  have hget := message.get_put m b [] h
  rw [List.append_nil] at hget
  simp [wire, hget]

/-- Names have different texts. -/
theorem namesDistinct_wire : wire.NamesDistinct := fun _ _ h => nameText_inj h

/-- The two bytes a word is read from are the bytes it is written as. -/
theorem be16_prefix_of_header_get {b rest : Bytes} {h : Header}
    (hget : header.get b = some (h, rest)) : be16 h.id <+: b := by
  match b with
  | [] | [_] => simp [header, view, seq, Format.bind, u16] at hget
  | hi :: lo :: s =>
      simp only [header, view, seq, Format.bind, u16, Option.bind_eq_bind, Option.bind_some,
        Option.bind_eq_some_iff, Option.pure_def, Option.some.injEq] at hget
      obtain ⟨p, ⟨q, hq, rfl⟩, heq⟩ := hget
      cases heq
      exact ⟨s, by simp [unpackFlags, be16_ofBe16]⟩

/-- A decoded message was read behind its own ID. -/
theorem be16_prefix_of_fromVec {b : Bytes} {m : Message} (h : wire.fromVec b = some m) :
    be16 m.id <+: b := by
  obtain ⟨p, hp, rfl⟩ := Option.map_eq_some_iff.mp h
  simp only [message, view, sections, Format.bind, seq, Option.bind_eq_bind,
    Option.bind_eq_some_iff, Option.pure_def, Option.some.injEq] at hp
  obtain ⟨s, ⟨c, ⟨hd, hget, _, _, rfl⟩, _, _, rfl⟩, m', hm, rfl⟩ := hp
  obtain ⟨a, _, rfl⟩ := Option.map_eq_some_iff.mp hm
  exact be16_prefix_of_header_get hget

/-- The ID comes first. -/
theorem idFirst_wire : wire.IdFirst where
  ofFromVec := fun _ _ h => be16_prefix_of_fromVec h
  ofToVec := fun m b h => be16_prefix_of_fromVec (roundTrips_wire m b h)

end Zebrafish.Dns.Wire
