import Zebrafish.Lib.Format

/-!
# Zebrafish.Dns.Message

The DNS messages the resolver handles, as the cache and the server see them:
header, questions, and the three record sections.  Record data is opaque —
nothing in the resolver looks inside it.

The wire codec itself is `hickory_proto`, which is not part of the
repository.  `Hickory` is its interface, a parameter of everything above, and
what the resolver relies on is stated as named properties of it
(`RoundTrips`, `NamesDistinct`, `IdFirst`).  `Zebrafish.Dns.Wire` has an
uncompressed codec with all three.
-/

namespace Zebrafish.Dns

abbrev Bytes := List UInt8

/-! ## names -/

/-- One label of a domain name: 1 to 63 bytes. -/
structure Label where
  bytes : Bytes
  pos : 0 < bytes.length
  le : bytes.length ≤ 63
deriving DecidableEq

/-- A fully qualified domain name; the root has no labels. -/
structure Name where
  labels : List Label
deriving DecidableEq

/-- `u8::to_ascii_lowercase`. -/
def asciiLower (b : UInt8) : UInt8 := if 65 ≤ b ∧ b ≤ 90 then b + 32 else b

def Label.toLowercase (l : Label) : Label where
  bytes := l.bytes.map asciiLower
  pos := by rw [List.length_map]; exact l.pos
  le := by rw [List.length_map]; exact l.le

def Name.toLowercase (n : Name) : Name := ⟨n.labels.map Label.toLowercase⟩

/-! ## messages -/

/-- A question. -/
structure Query where
  name : Name
  queryType : UInt16
  queryClass : UInt16
deriving DecidableEq

/-- A resource record. -/
structure Record where
  name : Name
  recordType : UInt16
  dnsClass : UInt16
  ttl : UInt32
  rdata : Bytes
deriving DecidableEq

/-- `RecordType::OPT`. -/
def RecordType.OPT : UInt16 := 41

def Record.setTtl (ttl : UInt32) (r : Record) : Record := { r with ttl := ttl }

inductive MessageType
  | query
  | response
deriving DecidableEq

structure Header where
  id : UInt16
  messageType : MessageType
  opCode : Fin 16
  authoritative : Bool
  truncated : Bool
  recursionDesired : Bool
  recursionAvailable : Bool
  authenticData : Bool
  checkingDisabled : Bool
  responseCode : Fin 16
deriving DecidableEq

/-- `Header::new`: a standard query with every flag clear. -/
def Header.new : Header where
  id := 0
  messageType := .query
  opCode := 0
  authoritative := false
  truncated := false
  recursionDesired := false
  recursionAvailable := false
  authenticData := false
  checkingDisabled := false
  responseCode := 0

/-- A message.  The EDNS pseudo-record (`OPT`) is kept apart from the
additional section, as the codec keeps it. -/
structure Message where
  header : Header
  queries : List Query
  answers : List Record
  nameServers : List Record
  additionals : List Record
  edns : Option Record
deriving DecidableEq

namespace Message

/-- `Message::new`. -/
def new : Message := ⟨Header.new, [], [], [], [], none⟩

def id (m : Message) : UInt16 := m.header.id

/-- The message under another ID. -/
def setId (id : UInt16) (m : Message) : Message :=
  { m with header := { m.header with id := id } }

/-- Overwrite the TTL of every answer record. -/
def setAnswerTtls (ttl : UInt32) (m : Message) : Message :=
  { m with answers := m.answers.map (Record.setTtl ttl) }

/-- The message up to the TTLs of its answers. -/
def dropAnswerTtls (m : Message) : Message := m.setAnswerTtls 0

/-- The message up to every TTL. -/
def dropTtls (m : Message) : Message :=
  { m with
    answers := m.answers.map (Record.setTtl 0)
    nameServers := m.nameServers.map (Record.setTtl 0)
    additionals := m.additionals.map (Record.setTtl 0) }

/-- Rewriting answer TTLs changes nothing but answer TTLs. -/
@[simp] theorem dropAnswerTtls_setAnswerTtls (ttl : UInt32) (m : Message) :
    (m.setAnswerTtls ttl).dropAnswerTtls = m.dropAnswerTtls := by
  simp only [dropAnswerTtls, setAnswerTtls, List.map_map]
  rfl

end Message

/-! ## the codec -/

/-- `hickory_proto`: wire form to message and back, and the text of a name. -/
structure Hickory where
  fromVec : Bytes → Option Message
  toVec : Message → Option Bytes
  nameText : Name → Bytes

namespace Hickory

/-- Decoding an encoded message gives the message back. -/
def RoundTrips (H : Hickory) : Prop :=
  ∀ m b, H.toVec m = some b → H.fromVec b = some m

/-- Distinct lower-cased names have distinct text forms. -/
def NamesDistinct (H : Hickory) : Prop :=
  ∀ n n' : Name, H.nameText n.toLowercase = H.nameText n'.toLowercase →
    n.toLowercase = n'.toLowercase

/-- The wire form of a message starts with its ID, most significant byte
first. -/
structure IdFirst (H : Hickory) : Prop where
  ofFromVec : ∀ b m, H.fromVec b = some m → Format.be16 m.id <+: b
  ofToVec : ∀ m b, H.toVec m = some b → Format.be16 m.id <+: b

end Hickory

end Zebrafish.Dns
