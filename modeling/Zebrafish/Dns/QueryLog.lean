import Zebrafish.Lib.JsonText
import Zebrafish.Lib.Lines
import Zebrafish.Dns.Tasks
import Zebrafish.Dns.Timestamp

/-!
# Zebrafish.Dns.QueryLog

The query log (`query_log.rs`): an entry for a reply, written as JSON on a line
of its own, and the calls of `log` among the events of the running server
(`server.rs`).

A task that has a reply calls `log` before it sends it, and other tasks may do
anything in between; the lock makes the call itself one event.  Its write may
fail after some of the bytes, which `log_entry` ignores: the reply is sent all
the same.  `logStep` adds that event to the server's, and what is left when it
is taken out is a schedule of the server itself (`served_run`).  `LogInv` is
kept by every event, and `replies_logged` reads off it what the log says of the
replies.
-/

namespace Zebrafish.Dns

open Shell (unlines utf8 utf8_append utf8_injective lines lines_unlines)
open Json (LineWriter Writer valid_nat valid_bool nat_injective bool_injective)

/-! ## entries -/

structure QueryLogEntry where
  timestamp : String
  clientIp : String
  clientPort : UInt16
  protocol : String
  queryId : UInt16
  qname : String
  qtype : String
  qclass : String
  responseCode : String
  answerCount : UInt16
  authorityCount : UInt16
  additionalCount : UInt16
  querySize : Nat
  responseSize : Nat
  cached : Bool
  upstreamStatus : Option UInt16
  upstreamLatencyMs : Option UInt64
  totalLatencyMs : UInt64
  pid : UInt32

/-- A member with a string. -/
def textMember (k v : String) : List Char × Json.Value := (k.toList, .str v.toList)

def natMember (k : String) (n : Nat) : List Char × Json.Value := (k.toList, .nat n)

/-- `skip_serializing_if = "Option::is_none"`. -/
def optionMember (k : String) (n : Option Nat) : List (List Char × Json.Value) :=
  (n.map (natMember k)).toList

/-- The members of an entry, in the order of its fields. -/
def QueryLogEntry.members (e : QueryLogEntry) : List (List Char × Json.Value) :=
  [textMember "timestamp" e.timestamp, textMember "client_ip" e.clientIp,
    natMember "client_port" e.clientPort.toNat, textMember "protocol" e.protocol,
    natMember "query_id" e.queryId.toNat, textMember "qname" e.qname,
    textMember "qtype" e.qtype, textMember "qclass" e.qclass,
    textMember "response_code" e.responseCode, natMember "answer_count" e.answerCount.toNat,
    natMember "authority_count" e.authorityCount.toNat,
    natMember "additional_count" e.additionalCount.toNat, natMember "query_size" e.querySize,
    natMember "response_size" e.responseSize, ("cached".toList, .bool e.cached)] ++
  (optionMember "upstream_status" (e.upstreamStatus.map UInt16.toNat) ++
    (optionMember "upstream_latency_ms" (e.upstreamLatencyMs.map UInt64.toNat) ++
      [natMember "total_latency_ms" e.totalLatencyMs.toNat, natMember "pid" e.pid.toNat]))

/-- What `Serialize` makes of an entry. -/
def QueryLogEntry.toValue (e : QueryLogEntry) : Json.Value := .object e.members

/-- The texts `hickory_proto` displays. -/
structure Texts where
  name : Name → String
  recordType : UInt16 → String
  dnsClass : UInt16 → String
  responseCode : Message → String

/-- The address of a client, as it is displayed, and its port. -/
structure Peer where
  ip : String
  port : UInt16

/-- A logger; its lines go to the file of `LoggedServer`. -/
structure QueryLogger where
  enabled : Bool
  pid : UInt32

/-- The entry `log` makes of its arguments. -/
def QueryLogger.entry (l : QueryLogger) (H : Hickory) (T : Texts) (timestamp : String)
    (client : Peer) (protocol : String) (queryBytes responseBytes : Bytes) (cached : Bool)
    (upstreamStatus : Option UInt16) (upstreamLatencyMs : Option UInt64)
    (totalLatencyMs : UInt64) : QueryLogEntry :=
  let queryMsg := H.fromVec queryBytes
  let respMsg := H.fromVec responseBytes
  let query := queryMsg.bind fun m => m.queries.head?
  { timestamp := timestamp
    clientIp := client.ip
    clientPort := client.port
    protocol := protocol
    queryId := (queryMsg.map Message.id).getD 0
    qname := (query.map fun q => T.name q.name).getD ""
    qtype := (query.map fun q => T.recordType q.queryType).getD ""
    qclass := (query.map fun q => T.dnsClass q.queryClass).getD ""
    responseCode := (respMsg.map T.responseCode).getD ""
    answerCount := (respMsg.map fun m => UInt16.ofNat m.answers.length).getD 0
    authorityCount := (respMsg.map fun m => UInt16.ofNat m.nameServers.length).getD 0
    additionalCount := (respMsg.map fun m => UInt16.ofNat m.additionals.length).getD 0
    querySize := queryBytes.length
    responseSize := responseBytes.length
    cached := cached
    upstreamStatus := upstreamStatus
    upstreamLatencyMs := upstreamLatencyMs
    totalLatencyMs := totalLatencyMs
    pid := l.pid }

/-! ### an entry is got back from its line -/

/-- An entry is written as valid JSON. -/
theorem valid_members (e : QueryLogEntry) : e.toValue.Valid := by
  refine Json.validMembers_iff.mpr fun m hm => ?_
  have hoption : ∀ (k : String) (n : Option Nat), ∀ m ∈ optionMember k n, m.2.Valid := by
    rintro k (_ | n) m hm
    · simp [optionMember] at hm
    · rw [List.mem_singleton.mp hm]
      exact valid_nat n
  simp only [QueryLogEntry.members, List.mem_append, List.mem_cons, List.not_mem_nil,
    or_false] at hm
  rcases hm with (rfl | rfl | rfl | rfl | rfl | rfl | rfl | rfl | rfl | rfl | rfl | rfl | rfl |
    rfl | rfl) | hm | hm | rfl | rfl
  case inr.inl => exact hoption _ _ m hm
  case inr.inr.inl => exact hoption _ _ m hm
  all_goals first | exact valid_nat _ | exact valid_bool _ | trivial

/-- Different texts are different members. -/
theorem textMember_inj {k v v' : String} (h : textMember k v = textMember k v') : v = v' :=
  String.toList_inj.mp (Json.Value.str.inj (Prod.mk.inj h).2)

/-- Different numbers are different members. -/
theorem natMember_inj {k : String} {n n' : Nat} (h : natMember k n = natMember k n') : n = n' :=
  nat_injective (Prod.mk.inj h).2

/-- A member that may be left out is told from what follows it. -/
theorem optionMember_inj {k : String} {n n' : Option Nat} {ms ms' : List (List Char × Json.Value)}
    (hms : ∀ m ∈ ms.head?, m.1 ≠ k.toList) (hms' : ∀ m ∈ ms'.head?, m.1 ≠ k.toList)
    (h : optionMember k n ++ ms = optionMember k n' ++ ms') : n = n' ∧ ms = ms' := by
  cases n with
  | none =>
      cases n' with
      | none => exact ⟨rfl, h⟩
      | some n' =>
          have hms : ms = natMember k n' :: ms' := h
          subst hms
          exact absurd rfl (hms _ rfl)
  | some n =>
      cases n' with
      | none =>
          have hms' : natMember k n :: ms = ms' := h
          subst hms'
          exact absurd rfl (hms' _ rfl)
      | some n' =>
          obtain ⟨hm, hrest⟩ := List.cons.inj h
          exact ⟨congrArg some (natMember_inj hm), hrest⟩

/-- Entries that are written alike are the same. -/
theorem toValue_inj {e e' : QueryLogEntry} (h : e.toValue = e'.toValue) : e = e' := by
  have hmembers : e.members = e'.members := Json.Value.object.inj h
  obtain ⟨hfront, hback⟩ := List.append_inj hmembers rfl
  have hlatencyKey : "upstream_latency_ms".toList ≠ "upstream_status".toList := by decide
  have htotalKey : "total_latency_ms".toList ≠ "upstream_status".toList := by decide
  have htotalKey' : "total_latency_ms".toList ≠ "upstream_latency_ms".toList := by decide
  have hhead : ∀ (n : Option Nat) (v : Json.Value) (ms : List (List Char × Json.Value)),
      ∀ m ∈ (optionMember "upstream_latency_ms" n ++ ("total_latency_ms".toList, v) :: ms).head?,
        m.1 ≠ "upstream_status".toList := by
    rintro (_ | n) v ms m hm <;> cases hm
    · exact htotalKey
    · exact hlatencyKey
  have htotal : ∀ (v : Json.Value) (ms : List (List Char × Json.Value)),
      ∀ m ∈ (("total_latency_ms".toList, v) :: ms).head?, m.1 ≠ "upstream_latency_ms".toList := by
    intro v ms m hm
    cases hm
    exact htotalKey'
  obtain ⟨hstatus, hback⟩ := optionMember_inj (hhead _ _ _) (hhead _ _ _) hback
  obtain ⟨hlatency, hback⟩ := optionMember_inj (htotal _ _) (htotal _ _) hback
  simp only [List.cons.injEq, and_true] at hfront hback
  obtain ⟨htime, hip, hport, hprotocol, hid, hname, htype, hclass, hcode, hanswers, hauthority,
    hadditional, hquery, hresponse, hcached⟩ := hfront
  obtain ⟨htotalMs, hpid⟩ := hback
  cases e
  cases e'
  simp only [QueryLogEntry.mk.injEq]
  exact ⟨textMember_inj htime, textMember_inj hip, UInt16.toNat_inj.mp (natMember_inj hport),
    textMember_inj hprotocol, UInt16.toNat_inj.mp (natMember_inj hid), textMember_inj hname,
    textMember_inj htype, textMember_inj hclass, textMember_inj hcode,
    UInt16.toNat_inj.mp (natMember_inj hanswers), UInt16.toNat_inj.mp (natMember_inj hauthority),
    UInt16.toNat_inj.mp (natMember_inj hadditional), natMember_inj hquery,
    natMember_inj hresponse, bool_injective (Prod.mk.inj hcached).2,
    Option.map_injective (fun _ _ => UInt16.toNat_inj.mp) hstatus,
    Option.map_injective (fun _ _ => UInt64.toNat_inj.mp) hlatency,
    UInt64.toNat_inj.mp (natMember_inj htotalMs), UInt32.toNat_inj.mp (natMember_inj hpid)⟩

/-- The line of an entry. -/
def QueryLogEntry.line (W : LineWriter) (e : QueryLogEntry) : List Char := W.text e.toValue

/-- Different entries have different lines. -/
theorem line_inj (W : LineWriter) {e e' : QueryLogEntry} (h : e.line W = e'.line W) : e = e' :=
  toValue_inj (W.text_inj (valid_members e) (valid_members e') h)

/-! ## the server with its log -/

/-- What the server runs with: the codec and the texts it displays, a JSON
writer, the logger if there is one, and who is behind a datagram or a
connection. -/
structure Logging where
  codec : Hickory
  texts : Texts
  writer : LineWriter
  logger : Option QueryLogger
  udpPeer : Nat → Peer
  tcpPeer : Nat → Peer

def Logging.client (L : Logging) (i : Nat) (t : Task) : Peer :=
  match t.origin with
  | .udp => L.udpPeer i
  | .tcp j => L.tcpPeer j

def Task.protocol (t : Task) : String :=
  match t.origin with
  | .udp => "UDP"
  | .tcp _ => "TCP"

/-- The call of `log` a task makes before it sends its reply. -/
def Logging.entry (L : Logging) (l : QueryLogger) (timestamp : String) (totalMs : UInt64)
    (i : Nat) (t : Task) (reply : Bytes) : Except ResolveError DnsResult → QueryLogEntry
  | .ok r =>
      l.entry L.codec L.texts timestamp (L.client i t) t.protocol t.query r.response r.cached
        r.upstreamStatus r.upstreamLatencyMs totalMs
  | .error _ =>
      l.entry L.codec L.texts timestamp (L.client i t) t.protocol t.query reply false none none
        totalMs

/-- An entry that was made for a task, and after how many bytes the write of
its line failed, if it did. -/
structure Logged where
  task : Nat
  entry : QueryLogEntry
  failed : Option Nat

/-- What `writeln!` leaves in the file for an entry. -/
def Logged.written (W : LineWriter) (p : Logged) : Bytes :=
  let bytes := utf8 (p.entry.line W ++ ['\n'])
  match p.failed with
  | none => bytes
  | some n => bytes.take n

/-- The server and the log file, with a record of the tasks that are behind
their call of `log` and of the entries it made. -/
structure LoggedServer where
  server : Server
  file : Bytes
  passed : List Nat
  entries : List Logged

/-- An event of the server, or the call of `log` a task makes: at a time since
the epoch, after so many milliseconds, and with a write that may fail. -/
inductive LogEvent
  | serve (e : Event)
  | log (task : Nat) (clock : Option Nat) (totalMs : UInt64) (failed : Option Nat)

/-- A task with a reply to send, and its result. -/
def Server.pending (H : Hickory) (s : Server) (i : Nat) :
    Option (Task × Except ResolveError DnsResult × Bytes) := do
  let t ← s.tasks[i]?
  match t.phase with
  | .done result => (response H t.query result).map fun reply => (t, result, reply)
  | _ => none

/-- A task with a reply sends it behind its call of `log`, if there is a logger. -/
def LoggedServer.ready (L : Logging) (s : LoggedServer) : Event → Bool
  | .act i .reply =>
      L.logger.isNone || s.passed.contains i || (s.server.pending L.codec i).isNone
  | _ => true

def logStep (L : Logging) (s : LoggedServer) : LogEvent → Option LoggedServer
  | .serve e =>
      if s.ready L e then (step L.codec s.server e).map fun server => { s with server := server }
      else none
  | .log i clock totalMs failed => do
      let l ← L.logger
      let (t, result, reply) ← s.server.pending L.codec i
      if s.passed.contains i then none
      else if l.enabled then
        (rfc3339 clock).map fun timestamp =>
          let logged : Logged := ⟨i, L.entry l timestamp totalMs i t reply result, failed⟩
          { s with
            file := s.file ++ logged.written L.writer
            passed := s.passed ++ [i]
            entries := s.entries ++ [logged] }
      else some { s with passed := s.passed ++ [i] }

def logRun (L : Logging) : LoggedServer → List LogEvent → Option LoggedServer
  | s, [] => some s
  | s, e :: events => do
      let s ← logStep L s e
      logRun L s events

/-- The server before the first client, with what is in the log already. -/
def logStart (c : DnsCache) (old : Bytes) : LoggedServer :=
  ⟨start c, old, [], []⟩

def LogEvent.served : LogEvent → Option Event
  | .serve e => some e
  | .log _ _ _ _ => none

variable {L : Logging} {l : QueryLogger} {s s' : LoggedServer} {old : Bytes}

/-- Logging takes no part in serving. -/
theorem served_run {events : List LogEvent} (h : logRun L s events = some s') :
    run L.codec s.server (events.filterMap LogEvent.served) = some s'.server := by
  induction events generalizing s with
  | nil =>
      cases h
      rfl
  | cons e events ih =>
      obtain ⟨s₁, hstep, hrun⟩ := Option.bind_eq_some_iff.mp h
      cases e with
      | serve e =>
          rw [logStep] at hstep
          split at hstep
          · obtain ⟨server, hserver, rfl⟩ := Option.map_eq_some_iff.mp hstep
            simpa [LogEvent.served, run, hserver] using ih hrun
          · cases hstep
      | log i clock totalMs failed =>
          simp only [logStep, Option.bind_eq_bind, Option.bind_eq_some_iff, Prod.exists] at hstep
          obtain ⟨l, _, t, result, reply, _, hstep⟩ := hstep
          have hserver : s₁.server = s.server := by
            split_ifs at hstep
            · obtain ⟨timestamp, _, rfl⟩ := Option.map_eq_some_iff.mp hstep
              rfl
            · cases hstep
              rfl
          rw [← hserver]
          exact ih hrun

/-! ## what an event does to replies -/

/-- The result of a task that has replied. -/
def Phase.closed? : Phase → Option (Except ResolveError DnsResult)
  | .closed result => some result
  | _ => none

/-- When a task is closed with a result. -/
theorem closed?_eq_some_iff {p : Phase} {result : Except ResolveError DnsResult} :
    p.closed? = some result ↔ p = .closed result := by
  cases p <;> simp [Phase.closed?]

/-- Other than a reply, an action neither closes a task nor is of a closed one. -/
theorem advance_open {H : Hickory} {c : DnsCache} {query : Bytes} {p : Phase} {a : Action}
    {adv : Advance} (h : advance H c query p a = some adv) (ha : a ≠ .reply) :
    adv.reply = none ∧ p.closed? = none ∧ adv.phase.closed? = none := by
  obtain ⟨_, looked, _, rfl, rfl, _, rfl⟩ | ⟨_, _, _, _, _, rfl, rfl, _, rfl⟩ |
    ⟨_, _, _, rfl, rfl, _, rfl⟩ | ⟨_, _, _, _, _, _, rfl, rfl, _, rfl⟩ | ⟨_, _, rfl, _⟩ :=
    advance_cases h
  · cases looked <;> simp [Looked.phase, Phase.closed?]
  · simp [Phase.closed?]
  · simp [Phase.closed?]
  · simp [Phase.closed?]
  · exact absurd rfl ha

/-- A reply is sent by a task that had its result, and closes it; no other
event sends one or closes a task. -/
theorem step_replies {H : Hickory} {s s' : Server} {e : Event} (h : step H s e = some s') :
    (∃ i t result, e = .act i .reply ∧ s.tasks[i]? = some t ∧ t.phase = .done result ∧
      s'.tasks = s.tasks.set i { t with phase := .closed result } ∧
      s'.sent = s.sent ++ (response H t.query result).toList.map (Sent.mk i)) ∨
    (s'.sent = s.sent ∧ ∀ (i : Nat) (t : Task), s.tasks[i]? = some t →
      ∃ t', s'.tasks[i]? = some t' ∧ Continues t t' ∧ t'.phase.closed? = t.phase.closed?) := by
  obtain ⟨_, _, hsent, htasks⟩ | ⟨j, a, u, adv, rfl, hu, hadv, _, htasks, _, hsent⟩ := step_cases h
  · refine .inr ⟨hsent, fun i t ht => ⟨t, ?_, .refl t, rfl⟩⟩
    obtain htasks | ⟨origin, asked, htasks⟩ := htasks
    · rw [htasks, ht]
    · rw [htasks, List.getElem?_append_left (List.getElem?_eq_some_iff.mp ht).1, ht]
  · by_cases ha : a = .reply
    · subst ha
      obtain ⟨_, _, _, _, hlookup, _⟩ | ⟨_, _, _, _, _, _, hup, _⟩ | ⟨_, _, _, _, hup, _⟩ |
        ⟨_, _, _, _, _, _, _, hins, _⟩ | ⟨result, hphase, _, rfl⟩ := advance_cases hadv
      · cases hlookup
      · cases hup
      · cases hup
      · cases hins
      · exact .inl ⟨j, u, result, rfl, hu, hphase, htasks, hsent⟩
    · obtain ⟨hreply, hp, hp'⟩ := advance_open hadv ha
      refine .inr ⟨by simpa [hreply] using hsent, fun i t ht => ?_⟩
      obtain ⟨t', ht', hcont⟩ := step_continues h ht
      refine ⟨t', ht', hcont, ?_⟩
      rw [htasks] at ht'
      by_cases hij : j = i
      · subst hij
        rw [hu] at ht
        cases ht
        rw [List.getElem?_set_self (List.getElem?_eq_some_iff.mp hu).1] at ht'
        cases ht'
        rw [hp, hp']
      · rw [List.getElem?_set_ne hij, ht] at ht'
        cases ht'
        rfl

/-- When a task has a reply to send. -/
theorem pending_eq_some {H : Hickory} {s : Server} {i : Nat} {t : Task} {reply : Bytes}
    {result : Except ResolveError DnsResult} :
    s.pending H i = some (t, result, reply) ↔
      s.tasks[i]? = some t ∧ t.phase = .done result ∧ response H t.query result = some reply := by
  simp only [Server.pending, Option.bind_eq_bind, Option.bind_eq_some_iff]
  constructor
  · rintro ⟨u, hu, h⟩
    split at h
    · next done hphase =>
        obtain ⟨r, hr, heq⟩ := Option.map_eq_some_iff.mp h
        cases heq
        exact ⟨hu, hphase, hr⟩
    · cases h
  · rintro ⟨ht, hphase, hreply⟩
    exact ⟨t, ht, by simp [hphase, hreply]⟩

/-! ## the invariant -/

/-- An entry is the one of a task, its result and its reply, made at some time. -/
def Describes (L : Logging) (l : QueryLogger) (i : Nat) (t : Task)
    (result : Except ResolveError DnsResult) (reply : Bytes) (e : QueryLogEntry) : Prop :=
  ∃ clock timestamp totalMs, rfc3339 clock = some timestamp ∧
    e = L.entry l timestamp totalMs i t reply result

/-- A task has a result and a reply. -/
def Answers (L : Logging) (s : Server) (i : Nat) (t : Task)
    (result : Except ResolveError DnsResult) (reply : Bytes) : Prop :=
  s.tasks[i]? = some t ∧ t.phase.result = some result ∧
    response L.codec t.query result = some reply

/-- What an entry describes stays so as the task goes on. -/
theorem Continues.describes {t t' : Task} (h : Continues t t') {i : Nat}
    {result : Except ResolveError DnsResult} {reply : Bytes} {e : QueryLogEntry}
    (he : Describes L l i t result reply e) : Describes L l i t' result reply e := by
  obtain ⟨clock, timestamp, totalMs, hclock, rfl⟩ := he
  refine ⟨clock, timestamp, totalMs, hclock, ?_⟩
  have hclient : L.client i t' = L.client i t := by simp only [Logging.client, h.origin]
  have hprotocol : t'.protocol = t.protocol := by simp only [Task.protocol, h.origin]
  cases result <;> simp only [Logging.entry, hclient, hprotocol, h.query_eq]

/-- The file has what was written for every entry, no task has two, and every
reply has its own, made before it was sent. -/
structure LogInv (L : Logging) (l : QueryLogger) (old : Bytes) (s : LoggedServer) : Prop where
  file : s.file = old ++ s.entries.flatMap (Logged.written L.writer)
  passed : s.passed = s.entries.map Logged.task
  distinct : s.passed.Nodup
  entries : ∀ p ∈ s.entries, ∃ t result reply, Answers L s.server p.task t result reply ∧
    Describes L l p.task t result reply p.entry ∧
    (t.phase = .closed result → ⟨p.task, reply⟩ ∈ s.server.sent)
  sent : ∀ x ∈ s.server.sent, ∃ t result, s.server.tasks[x.task]? = some t ∧
    t.phase = .closed result ∧ response L.codec t.query result = some x.reply ∧
    x.task ∈ s.passed
  once : (s.server.sent.map Sent.task).Nodup

/-- The invariant of the log holds at the start. -/
theorem logInv_start (L : Logging) (l : QueryLogger) (c : DnsCache) (old : Bytes) :
    LogInv L l old (logStart c old) where
  file := by simp [logStart]
  passed := rfl
  distinct := .nil
  entries := by simp [logStart]
  sent := by simp [logStart, start]
  once := by simp [logStart, start]

/-- A task that has a reply to send has not sent one. -/
theorem LogInv.unsent {i : Nat} {t : Task} {result : Except ResolveError DnsResult}
    (hinv : LogInv L l old s) (ht : s.server.tasks[i]? = some t) (hphase : t.phase = .done result) :
    ∀ x ∈ s.server.sent, x.task ≠ i := by
  rintro x hx rfl
  obtain ⟨u, r, hu, hclosed, _⟩ := hinv.sent x hx
  rw [ht] at hu
  cases hu
  rw [hphase] at hclosed
  cases hclosed

/-- A task replies behind its entry. -/
theorem logInv_reply {i : Nat} {t : Task} {result : Except ResolveError DnsResult}
    {server : Server} (hinv : LogInv L l old s) (ht : s.server.tasks[i]? = some t)
    (hphase : t.phase = .done result)
    (htasks : server.tasks = s.server.tasks.set i { t with phase := .closed result })
    (hsent : server.sent =
      s.server.sent ++ (response L.codec t.query result).toList.map (Sent.mk i))
    (hpassed : ∀ reply, response L.codec t.query result = some reply → i ∈ s.passed) :
    LogInv L l old { s with server := server } := by
  have hself : server.tasks[i]? = some { t with phase := .closed result } := by
    rw [htasks, List.getElem?_set_self (List.getElem?_eq_some_iff.mp ht).1]
  have hother : ∀ j, j ≠ i → server.tasks[j]? = s.server.tasks[j]? := by
    intro j hj
    rw [htasks, List.getElem?_set_ne hj.symm]
  have hopen := hinv.unsent ht hphase
  refine ⟨hinv.file, hinv.passed, hinv.distinct, fun p hp => ?_, fun x hx => ?_, ?_⟩
  · obtain ⟨u, r, reply, ⟨hu, hr, hreply⟩, he, hclosed⟩ := hinv.entries p hp
    by_cases hpi : p.task = i
    · rw [hpi, ht] at hu
      cases hu
      have hresult : r = result := by simpa [hphase, Phase.result, eq_comm] using hr
      subst hresult
      refine ⟨{ t with phase := .closed r }, r, reply, ⟨hpi ▸ hself, rfl, hreply⟩, ?_,
        fun _ => ?_⟩
      · exact Continues.describes ⟨rfl, rfl, fun _ h => by simpa [hphase] using h⟩ he
      · simp [hsent, hreply, hpi]
    · refine ⟨u, r, reply, ⟨(hother p.task hpi).trans hu, hr, hreply⟩, he, fun h => ?_⟩
      simp [hsent, hclosed h]
  · have hx : x ∈ s.server.sent ++ (response L.codec t.query result).toList.map (Sent.mk i) :=
      hsent ▸ hx
    obtain hx | hx := List.mem_append.mp hx
    · obtain ⟨u, r, hu, hrest⟩ := hinv.sent x hx
      exact ⟨u, r, (hother _ (hopen x hx)).trans hu, hrest⟩
    · obtain ⟨reply, hreply, rfl⟩ := List.mem_map.mp hx
      have hreply := Option.mem_toList.mp hreply
      exact ⟨_, result, hself, rfl, hreply, hpassed reply hreply⟩
  · rw [hsent, List.map_append, List.nodup_append]
    refine ⟨hinv.once, ?_, ?_⟩
    · cases response L.codec t.query result <;> simp
    · intro a ha b hb
      obtain ⟨x, hx, rfl⟩ := List.mem_map.mp ha
      obtain ⟨y, hy, rfl⟩ := List.mem_map.mp hb
      obtain ⟨reply, _, rfl⟩ := List.mem_map.mp hy
      exact hopen x hx

/-- Where nothing is sent, tasks go on and keep their entries. -/
theorem logInv_goesOn {server : Server} (hinv : LogInv L l old s)
    (hsent : server.sent = s.server.sent)
    (hkeep : ∀ (i : Nat) (t : Task), s.server.tasks[i]? = some t → ∃ t',
      server.tasks[i]? = some t' ∧ Continues t t' ∧ t'.phase.closed? = t.phase.closed?) :
    LogInv L l old { s with server := server } := by
  refine ⟨hinv.file, hinv.passed, hinv.distinct, fun p hp => ?_, fun x hx => ?_, ?_⟩
  · obtain ⟨t, r, reply, ⟨ht, hr, hreply⟩, he, hclosed⟩ := hinv.entries p hp
    obtain ⟨t', ht', hcont, hsame⟩ := hkeep p.task t ht
    refine ⟨t', r, reply, ⟨ht', hcont.result r hr, by rw [hcont.query_eq, hreply]⟩,
      hcont.describes he, fun h => ?_⟩
    rw [← closed?_eq_some_iff, hsame, closed?_eq_some_iff] at h
    rw [hsent]
    exact hclosed h
  · obtain ⟨t, r, ht, hclosed, hreply, hpassed⟩ := hinv.sent x (hsent ▸ hx)
    obtain ⟨t', ht', hcont, hsame⟩ := hkeep x.task t ht
    rw [← closed?_eq_some_iff, ← hsame, closed?_eq_some_iff] at hclosed
    exact ⟨t', r, ht', hclosed, by rw [hcont.query_eq, hreply], hpassed⟩
  · rw [hsent]
    exact hinv.once

/-- An event of the server keeps it. -/
theorem logInv_serve (hl : L.logger = some l) {e : Event} {server : Server}
    (hinv : LogInv L l old s) (hready : s.ready L e) (h : step L.codec s.server e = some server) :
    LogInv L l old { s with server := server } := by
  obtain ⟨i, t, result, rfl, ht, hphase, htasks, hsent⟩ | ⟨hsent, hkeep⟩ := step_replies h
  · refine logInv_reply hinv ht hphase htasks hsent fun reply hreply => ?_
    have hpending : s.server.pending L.codec i = some (t, result, reply) :=
      pending_eq_some.mpr ⟨ht, hphase, hreply⟩
    simpa [LoggedServer.ready, hl, hpending] using hready
  · exact logInv_goesOn hinv hsent hkeep

/-- Each event keeps it. -/
theorem logInv_step (hl : L.logger = some l) (hon : l.enabled = true) {e : LogEvent}
    (hinv : LogInv L l old s) (h : logStep L s e = some s') : LogInv L l old s' := by
  cases e with
  | serve e =>
      rw [logStep] at h
      split at h
      · next hready =>
          obtain ⟨server, hserver, rfl⟩ := Option.map_eq_some_iff.mp h
          exact logInv_serve hl hinv hready hserver
      · cases h
  | log i clock totalMs failed =>
      simp only [logStep, Option.bind_eq_bind, Option.bind_eq_some_iff, Prod.exists, hl,
        Option.some.injEq, exists_eq_left', hon, if_true] at h
      obtain ⟨t, result, reply, hpending, h⟩ := h
      obtain ⟨ht, hphase, hreply⟩ := pending_eq_some.mp hpending
      split_ifs at h with hnew
      obtain ⟨timestamp, hclock, rfl⟩ := Option.map_eq_some_iff.mp h
      refine ⟨?_, ?_, ?_, fun p hp => ?_, fun x hx => ?_, hinv.once⟩
      · simp [hinv.file]
      · simp [hinv.passed]
      · have hnew : i ∉ s.passed := by simpa using hnew
        simpa [List.nodup_append, hinv.distinct] using fun j hj (hij : j = i) => hnew (hij ▸ hj)
      · obtain hp | hp := List.mem_append.mp hp
        · exact hinv.entries p hp
        · rw [List.mem_singleton.mp hp]
          refine ⟨t, result, reply, ⟨ht, by simp [hphase, Phase.result], hreply⟩,
            ⟨clock, timestamp, totalMs, hclock, rfl⟩, fun h => ?_⟩
          rw [hphase] at h
          cases h
      · obtain ⟨u, r, hu, hclosed, hsame, hpassed⟩ := hinv.sent x hx
        exact ⟨u, r, hu, hclosed, hsame, List.mem_append_left _ hpassed⟩

/-- So does every schedule. -/
theorem logInv_run (hl : L.logger = some l) (hon : l.enabled = true) {events : List LogEvent}
    (hinv : LogInv L l old s) (h : logRun L s events = some s') : LogInv L l old s' := by
  induction events generalizing s with
  | nil =>
      cases h
      exact hinv
  | cons e events ih =>
      obtain ⟨s₁, hstep, hrun⟩ := Option.bind_eq_some_iff.mp h
      exact ih (logInv_step hl hon hinv hstep) hrun

/-! ## what the log says -/

/-- A task with a result is done or closed. -/
theorem result_cases {p : Phase} {result : Except ResolveError DnsResult}
    (h : p.result = some result) : p = .done result ∨ p = .closed result := by
  cases p <;> simp_all [Phase.result]

/-- What was written of an entry is its line, or the start of it. -/
theorem written_prefix (W : LineWriter) (p : Logged) :
    p.written W <+: utf8 (p.entry.line W ++ ['\n']) := by
  unfold Logged.written
  cases p.failed with
  | none => exact List.prefix_rfl
  | some n => exact List.take_prefix n _

/-- Writes that do not fail leave the lines. -/
theorem flatMap_written (W : LineWriter) {ps : List Logged} (h : ∀ p ∈ ps, p.failed = none) :
    ps.flatMap (Logged.written W) = utf8 (unlines (ps.map fun p => p.entry.line W)) := by
  induction ps with
  | nil => rfl
  | cons p ps ih =>
      obtain ⟨hp, hps⟩ := List.forall_mem_cons.mp h
      have hline : p.written W = utf8 (p.entry.line W ++ ['\n']) := by rw [Logged.written, hp]
      rw [List.flatMap_cons, ih hps, hline, ← utf8_append, List.append_assoc, List.map_cons,
        Shell.unlines_cons]
      rfl

/-- The lines of entries say what the entries are. -/
theorem unlines_line_inj (W : LineWriter) {es es' : List QueryLogEntry}
    (h : unlines (es.map fun e => e.line W) = unlines (es'.map fun e => e.line W)) : es = es' := by
  have hline : ∀ es : List QueryLogEntry, ∀ line ∈ es.map (fun e => e.line W), '\n' ∉ line := by
    intro es line hline
    obtain ⟨e, _, rfl⟩ := List.mem_map.mp hline
    exact W.oneLine _ (valid_members e)
  have hlines := congrArg lines h
  rw [lines_unlines (hline es), lines_unlines (hline es')] at hlines
  exact (List.map_inj_right fun _ _ => line_inj W).mp hlines

/-- **The query log.**  In any schedule of the server with a logger, every reply
that was sent has an entry that was made for it, and every entry is for a reply
that was sent or is about to be; no task has two of either; and taking out the
calls of `log` leaves a schedule of the server.  The file is what it was and,
for each entry, its line or what a write that failed left of it; where none
failed, the entries can be got back from the file. -/
theorem replies_logged (L : Logging) (l : QueryLogger) (hl : L.logger = some l)
    (hon : l.enabled = true) (c : DnsCache) (old : Bytes) (events : List LogEvent)
    (s : LoggedServer) (hrun : logRun L (logStart c old) events = some s) :
    run L.codec (start c) (events.filterMap LogEvent.served) = some s.server ∧
    (∀ x ∈ s.server.sent, ∃ t result, Answers L s.server x.task t result x.reply ∧
      ∃ p ∈ s.entries, p.task = x.task ∧ Describes L l x.task t result x.reply p.entry) ∧
    (∀ p ∈ s.entries, ∃ t result reply, Answers L s.server p.task t result reply ∧
      Describes L l p.task t result reply p.entry ∧
      (⟨p.task, reply⟩ ∈ s.server.sent ∨ t.phase = .done result)) ∧
    (s.entries.map Logged.task).Nodup ∧ (s.server.sent.map Sent.task).Nodup ∧
    s.file = old ++ s.entries.flatMap (Logged.written L.writer) ∧
    (∀ p ∈ s.entries, Json.Decodes (p.entry.line L.writer) p.entry.toValue ∧
      p.written L.writer <+: utf8 (p.entry.line L.writer ++ ['\n'])) ∧
    ((∀ p ∈ s.entries, p.failed = none) →
      s.file = old ++ utf8 (unlines (s.entries.map fun p => p.entry.line L.writer)) ∧
      ∀ es : List QueryLogEntry,
        s.file = old ++ utf8 (unlines (es.map fun e => e.line L.writer)) →
          es = s.entries.map Logged.entry) := by
  have hinv := logInv_run hl hon (logInv_start L l c old) hrun
  refine ⟨served_run hrun, fun x hx => ?_, fun p hp => ?_, hinv.passed ▸ hinv.distinct, hinv.once,
    hinv.file, fun p _ => ⟨L.writer.decodes _ (valid_members p.entry), written_prefix _ p⟩,
    fun hwhole => ?_⟩
  · obtain ⟨t, result, ht, hclosed, hreply, hpassed⟩ := hinv.sent x hx
    rw [hinv.passed] at hpassed
    obtain ⟨p, hp, hpx⟩ := List.mem_map.mp hpassed
    obtain ⟨u, r, reply, ⟨hu, hr, hsame⟩, he, _⟩ := hinv.entries p hp
    -- the entry is for the same task, which has one result
    rw [hpx, ht] at hu
    cases hu
    have hresult : r = result := by simpa [hclosed, Phase.result, eq_comm] using hr
    subst hresult
    rw [hreply] at hsame
    cases hsame
    exact ⟨t, r, ⟨ht, hr, hreply⟩, p, hp, hpx, hpx ▸ he⟩
  · obtain ⟨t, result, reply, hanswers, he, hclosed⟩ := hinv.entries p hp
    refine ⟨t, result, reply, hanswers, he, ?_⟩
    obtain hphase | hphase := result_cases hanswers.2.1
    · exact .inr hphase
    · exact .inl (hclosed hphase)
  · have hfile : s.file = old ++ utf8 (unlines (s.entries.map fun p => p.entry.line L.writer)) := by
      rw [hinv.file, flatMap_written L.writer hwhole]
    refine ⟨hfile, fun es hes => ?_⟩
    rw [hfile, List.append_cancel_left_eq] at hes
    refine (unlines_line_inj L.writer ?_).symm
    rw [List.map_map]
    exact utf8_injective hes

/-- A server with the codec of `Wire` that logs to an empty file. -/
def logSetting : Logging where
  codec := Wire.wire
  texts :=
    { name := fun n => String.ofList ((Wire.nameText n).map fun b => Char.ofNat b.toNat)
      recordType := fun _ => "A"
      dnsClass := fun _ => "IN"
      responseCode := fun _ => "No Error" }
  writer := Json.compactWriter
  logger := some ⟨true, 42⟩
  udpPeer := fun i => ⟨"192.0.2.7", UInt16.ofNat (40000 + i)⟩
  tcpPeer := fun _ => ⟨"192.0.2.8", 50000⟩

/-- A query is resolved, logged and answered; a second one is answered from the
cache, but only logged so far. -/
def askedAndLogged : List LogEvent :=
  [.serve (.datagram (askBytes false)), .serve (.act 0 (.lookup 0)),
    .serve (.act 0 (.upstream (.response 200 5 (some DnsCache.answerA)))),
    .serve (.act 0 (.insert 0)), .log 0 (some 0) 7 none, .serve (.datagram (askBytes false)),
    .serve (.act 1 (.lookup 1)), .serve (.act 0 .reply), .log 1 (some 1000000) 0 none]

theorem replies_logged_twice : ∃ c s, DnsCache.new (fun _ => true) 2 60 86400 = .ok c ∧
    logRun logSetting (logStart c []) askedAndLogged = some s ∧ s.entries.length = 2 ∧
    s.server.sent.length = 1 ∧
    s.file = utf8 (unlines (s.entries.map fun p => p.entry.line Json.compactWriter)) ∧
    ∃ p ∈ s.entries, p.task = 0 ∧
      ∃ t result, Describes logSetting ⟨true, 42⟩ 0 t result DnsCache.answerA p.entry := by
  have hrun : ∀ c, DnsCache.new (fun _ => true) 2 60 86400 = .ok c →
      (logRun logSetting (logStart c []) askedAndLogged).map
        (fun s => (s.entries.map Logged.failed, s.server.sent.map fun x => (x.task, x.reply))) =
          some ([none, none], [(0, DnsCache.answerA)]) := by
    intro c hc
    cases hc
    decide +kernel
  obtain ⟨c, hc⟩ : ∃ c, DnsCache.new (fun _ => true) 2 60 86400 = .ok c := ⟨_, rfl⟩
  obtain ⟨s, hs, h⟩ := Option.map_eq_some_iff.mp (hrun c hc)
  obtain ⟨hfailed, hsent⟩ := Prod.mk.inj h
  have hwhole : ∀ p ∈ s.entries, p.failed = none := by
    intro p hp
    have hmem := List.mem_map_of_mem (f := Logged.failed) hp
    rw [hfailed] at hmem
    simpa using hmem
  have hcount : s.entries.length = 2 := by simpa using congrArg List.length hfailed
  obtain ⟨x, hx, hxs⟩ : ∃ x, s.server.sent = [x] ∧ (x.task, x.reply) = (0, DnsCache.answerA) := by
    obtain ⟨x, xs, hcons, hx, hxs⟩ := List.map_eq_cons_iff.mp hsent
    exact ⟨x, by rw [hcons, List.map_eq_nil_iff.mp hxs], hx⟩
  obtain ⟨htask, hreply⟩ := Prod.mk.inj hxs
  obtain ⟨_, hreplied, _, _, _, _, _, hback⟩ :=
    replies_logged logSetting ⟨true, 42⟩ rfl rfl c [] askedAndLogged s hs
  obtain ⟨t, result, _, p, hp, hpx, hdesc⟩ := hreplied x (by rw [hx]; exact List.mem_cons_self)
  rw [htask, hreply] at hdesc
  exact ⟨c, s, hc, hs, hcount, by rw [hx]; rfl, (hback hwhole).1, p, hp, hpx.trans htask, t,
    result, hdesc⟩

end Zebrafish.Dns
