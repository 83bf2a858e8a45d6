import Zebrafish.Dns.AddrTuples
import Zebrafish.Dns.Tasks

/-!
# Zebrafish.Dns.Lookup

The name service switch module (`nss.rs`) and the running server together: a
lookup is a datagram to the server, and what comes back is one of its replies.

`exchangeWith` is `query_local_dns` up to the records of the response; with a
`server` that `Delivers` what the running server has sent, the addresses a
process is given are those of a body that was fetched for the same question
(`lookup_from_upstream`).
-/

namespace Zebrafish.Dns

namespace Nss

open Memory Net

/-! ## a lookup -/

/-- The number of a record type. -/
def RecordType.code : RecordType → UInt16
  | .A => 1
  | .AAAA => 28

/-- `DNSClass::IN`. -/
def DNSClass.IN : UInt16 := 1

/-- The query for a name. -/
def lookupMessage (id : UInt16) (name : Name) (recordType : RecordType) : Message :=
  { Message.new with
    header :=
      { Header.new with
        id := id
        messageType := .query
        opCode := OpCode.Query
        recursionDesired := true }
    queries := [⟨name, recordType.code, DNSClass.IN⟩] }

/-- How `hickory_proto` reads a host name and the data of a record. -/
structure Parse where
  fromUtf8 : Bytes → Option Name
  rdata : UInt16 → Bytes → RData

/-- Ask the server: `ids` are the IDs that were chosen, and `server` is the
datagram that comes back, which is cut to the buffer. -/
def exchangeWith (H : Hickory) (P : Parse) (ids : Bytes → RecordType → UInt16)
    (server : Bytes → Option Bytes) : Exchange :=
  fun name recordType => do
    let dnsName ← P.fromUtf8 name
    let wire ← H.toVec (lookupMessage (ids name recordType) dnsName recordType)
    let datagram ← server wire
    let response ← H.fromVec (datagram.take 4096)
    pure (response.answers.map fun r => P.rdata r.recordType r.rdata)

/-- What comes back for a datagram is a reply that was sent for it, and neither
of them is cut off. -/
def Delivers (s : Server) (server : Bytes → Option Bytes) : Prop :=
  ∀ wire reply, server wire = some reply → wire.length ≤ 4096 ∧ reply.length ≤ 4096 ∧
    ∃ x ∈ s.sent, ∃ t, s.tasks[x.task]? = some t ∧ t.origin = .udp ∧ t.asked = wire ∧
      x.reply = reply

/-- These are the addresses of some type in a body that was fetched for a name,
in the order of its answers. -/
def Fetched (H : Hickory) (P : Parse) (s : Server) (name : Bytes) (recordType : RecordType)
    (addrs : List IpAddr) : Prop :=
  ∃ dnsName m₀ body response, P.fromUtf8 name = some dnsName ∧ (m₀, body) ∈ s.fetched ∧
    m₀.question = some ⟨dnsName.toLowercase, dnsName.toLowercase_idem, recordType.code,
      DNSClass.IN⟩ ∧
    H.fromVec body = some response ∧
    addrs = response.answers.filterMap fun r => (P.rdata r.recordType r.rdata).addr recordType

/-! ## replies and bodies -/

/-- Records that differ in their TTLs have the same data. -/
theorem addrs_of_dropAnswerTtls (P : Parse) (recordType : RecordType) {m m' : Message}
    (h : m'.dropAnswerTtls = m.dropAnswerTtls) :
    (m'.answers.filterMap fun r => (P.rdata r.recordType r.rdata).addr recordType) =
      m.answers.filterMap fun r => (P.rdata r.recordType r.rdata).addr recordType := by
  have hanswers : m'.answers.map (Record.setTtl 0) = m.answers.map (Record.setTtl 0) :=
    congrArg Message.answers h
  have hdrop : ∀ rs : List Record,
      (rs.filterMap fun r => (P.rdata r.recordType r.rdata).addr recordType) =
        (rs.map (Record.setTtl 0)).filterMap fun r =>
          (P.rdata r.recordType r.rdata).addr recordType := by
    intro rs
    rw [List.filterMap_map]
    rfl
  rw [hdrop, hanswers, ← hdrop]

/-- A reply has the addresses of its body. -/
theorem addrs_of_sameReply {H : Hickory} (hapart : H.IdApart) (P : Parse)
    (recordType : RecordType) {id : UInt16} {body reply : Bytes} {response : Message}
    (hbody : 2 ≤ body.length) (hsame : SameReply H id body reply)
    (hresponse : H.fromVec reply = some response) :
    ∃ m, H.fromVec body = some m ∧
      (response.answers.filterMap fun r => (P.rdata r.recordType r.rdata).addr recordType) =
        m.answers.filterMap fun r => (P.rdata r.recordType r.rdata).addr recordType := by
  obtain ⟨served, hserved, hlen, rfl⟩ := hsame
  rw [hapart id served (by omega)] at hresponse
  obtain ⟨m', hm', rfl⟩ := Option.map_eq_some_iff.mp hresponse
  cases hm : H.fromVec body with
  | none =>
      rw [hserved.1 hm, hm] at hm'
      cases hm'
  | some m =>
      obtain ⟨m'', hm'', hdrop⟩ := hserved.2 m hm
      rw [hm'] at hm''
      cases hm''
      have haddrs := addrs_of_dropAnswerTtls P recordType hdrop
      exact ⟨m, rfl, haddrs⟩

/-- The lookup of some type. -/
theorem fetched_of_query {H : Hickory} (hrt : H.RoundTrips) (hn : H.NamesDistinct)
    (hapart : H.IdApart) (P : Parse) {s : Server} (hinv : Inv H s) {server : Bytes → Option Bytes}
    (hserver : Delivers s server) {ids : Bytes → RecordType → UInt16} {name : Bytes}
    {recordType : RecordType} {addrs : List IpAddr}
    (h : queryLocalDns (exchangeWith H P ids server) name recordType = some addrs) :
    Fetched H P s name recordType addrs := by
  obtain ⟨answers, hexchange, hne, haddrs⟩ := queryLocalDns_eq_some h
  simp only [exchangeWith, Option.bind_eq_bind, Option.bind_eq_some_iff, Option.pure_def,
    Option.some.injEq] at hexchange
  obtain ⟨dnsName, hname, wire, hwire, reply, hreply, response, hresponse, rfl⟩ := hexchange
  obtain ⟨hwireLen, hreplyLen, x, hx, t, ht, hudp, hasked, rfl⟩ := hserver wire reply hreply
  rw [List.take_of_length_le hreplyLen] at hresponse
  have hquery : t.query = wire := by
    rw [Task.query, hudp, hasked, List.take_of_length_le hwireLen]
  obtain ⟨t', ht', hok⟩ := hinv.sent x hx
  rw [ht] at ht'
  cases ht'
  rw [hquery] at hok
  rw [List.filterMap_map] at haddrs
  obtain hfail | ⟨m, hm, m₀, body, hmem, hkey, hsame⟩ := hok
  · -- a SERVFAIL has no answers
    obtain ⟨q, _, hput⟩ := Option.bind_eq_some_iff.mp hfail
    rw [hrt _ _ hput] at hresponse
    cases hresponse
    exact absurd haddrs hne
  · rw [hrt _ _ hwire] at hm
    cases hm
    obtain ⟨m', hm', hsameAddrs⟩ :=
      addrs_of_sameReply hapart P recordType (hinv.bodies _ hmem) hsame hresponse
    refine ⟨dnsName, m₀, body, m', hname, hmem, ?_, hm', haddrs.trans hsameAddrs⟩
    rw [DnsCache.cacheKey_eq, DnsCache.cacheKey_eq] at hkey
    exact Option.map_injective (Question.key_injective hn) hkey

/-- A query for `a.` is resolved and answered. -/
def askedOnce : List Event :=
  [.datagram (askBytes false), .act 0 (.lookup 0),
    .act 0 (.upstream (.response 200 5 (some DnsCache.answerA))), .act 0 (.insert 0),
    .act 0 .reply]

/-- The name of `askA` is known, and the addresses of IPv4. -/
def plainParse : Parse where
  fromUtf8 name := if name = [97] then DnsCache.askA.queries.head?.map (·.name) else none
  rdata
    | 1, [a, b, c, d] => .A ⟨a, b, c, d⟩
    | _, _ => .other

/-- A server that has answered the one query. -/
def answeringOnce (wire : Bytes) : Option Bytes :=
  if wire = askBytes false then some DnsCache.answerA else none

/-- Its exchanges. -/
def exchangeOnce : Exchange := exchangeWith Wire.wire plainParse (fun _ _ => 1234) answeringOnce

/-- It has sent what the exchanges take from it. -/
theorem delivers_askedOnce : ∃ s, serve askedOnce = some s ∧ Delivers s answeringOnce := by
  have hstate : (serve askedOnce).map (fun s =>
      (s.sent.map fun x => (x.task, x.reply), s.tasks[0]?.map fun t =>
        (t.asked, Origin.casesOn t.origin true fun _ => false))) =
      some ([(0, DnsCache.answerA)], some (askBytes false, true)) := by decide +kernel
  obtain ⟨s, hrun, hs⟩ := Option.map_eq_some_iff.mp hstate
  obtain ⟨hsent, htask⟩ := Prod.mk.inj hs
  obtain ⟨t, ht, hasked⟩ := Option.map_eq_some_iff.mp htask
  obtain ⟨hasked, hudp⟩ := Prod.mk.inj hasked
  have horigin : t.origin = .udp := by
    cases ho : t.origin with
    | udp => rfl
    | tcp j =>
        rw [ho] at hudp
        cases hudp
  obtain ⟨x, hx, hxs⟩ : ∃ x, s.sent = [x] ∧ (x.task, x.reply) = (0, DnsCache.answerA) := by
    obtain ⟨x, xs, hcons, hx, hxs⟩ := List.map_eq_cons_iff.mp hsent
    exact ⟨x, by rw [hcons, List.map_eq_nil_iff.mp hxs], hx⟩
  obtain ⟨hzero, hreply⟩ := Prod.mk.inj hxs
  refine ⟨s, hrun, fun wire reply h => ?_⟩
  unfold answeringOnce at h
  split at h
  · next hwire =>
      cases h
      subst hwire
      exact ⟨by decide, by decide, x, by simp [hx], t, hzero ▸ ht, horigin, hasked, hreply⟩
  · cases h

/-- Its upstream body has an ID. -/
theorem longBodies_askedOnce : ∀ e ∈ askedOnce, LongBodies e := by
  rintro e he i outcome status latency body rfl hfetch
  simp only [askedOnce, List.mem_cons, reduceCtorEq, Event.act.injEq, Action.upstream.injEq,
    false_or, or_false, and_false, List.not_mem_nil] at he
  obtain ⟨-, rfl⟩ := he
  cases hfetch
  decide

end Nss

end Zebrafish.Dns
