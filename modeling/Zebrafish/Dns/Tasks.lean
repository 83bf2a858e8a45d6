import Zebrafish.Dns.Server

/-!
# Zebrafish.Dns.Tasks

The running server: UDP datagrams and TCP connections spawn query tasks, and
the tasks share one cache.

A task goes through the parts of `resolve` — look up, wait for upstream, store,
reply — and any event of any task may come between two of them.  `advance` is
what one action does to a task and the cache, `step` what one event does to
the server, and `run` a whole schedule.  A panic ends the process, so no event
leads on from it.

`Inv` is kept by every event (`inv_step`, `inv_run`); `server_replies` reads
off it what clients are sent, and what a failed resolution does to the cache.
-/

namespace Zebrafish.Dns

open Lru Rust
open DnsCache (cacheKey)
open Format (be16)

/-! ## the server -/

/-- How far a task has come with its query. -/
inductive Phase
  | received
  | waiting (query : Message)
  | fetched (query : Message) (status : UInt16) (latency : UInt64) (body : Bytes)
  | done (result : Except ResolveError DnsResult)
  | closed (result : Except ResolveError DnsResult)

/-- Whom a task answers. -/
inductive Origin
  | udp
  | tcp (conn : Nat)

/-- A query being resolved; `asked` is what the client sent. -/
structure Task where
  origin : Origin
  asked : Bytes
  phase : Phase

/-- The query as received: a datagram is cut to the buffer. -/
def Task.query (t : Task) : Bytes :=
  match t.origin with
  | .udp => t.asked.take 4096
  | .tcp _ => t.asked

inductive ConnPhase
  | idle
  | busy
  | closed
deriving DecidableEq

/-- A TCP connection and what is left to read from it. -/
structure Conn where
  input : Bytes
  phase : ConnPhase

/-- A reply, and the task it was sent for. -/
structure Sent where
  task : Nat
  reply : Bytes

/-- The server, with a record of the bodies fetched and the replies sent. -/
structure Server where
  cache : DnsCache
  conns : List Conn
  tasks : List Task
  fetched : List (Message × Bytes)
  sent : List Sent

/-- What a task can do next. -/
inductive Action
  | lookup (now : Nat)
  | upstream (outcome : Upstream)
  | insert (now : Nat)
  | reply

inductive Event
  | datagram (bytes : Bytes)
  | accept (stream : Bytes)
  | read (conn : Nat)
  | act (task : Nat) (action : Action)

/-- What an action comes to: the task's next phase, the cache after it, the
body it fetched and the reply it sent. -/
structure Advance where
  phase : Phase
  cache : DnsCache
  fetched : Option (Message × Bytes)
  reply : Option Bytes

def Looked.phase : Looked → Phase
  | .badQuery => .done (.error .badQuery)
  | .hit result => .done (.ok result)
  | .miss query => .waiting query

/-- One action of a task. -/
def advance (H : Hickory) (c : DnsCache) (query : Bytes) : Phase → Action → Option Advance
  | .received, .lookup now =>
      match lookupQuery H c now query with
      | .ok (looked, c) => some ⟨looked.phase, c, none, none⟩
      | .error _ => none
  | .waiting m, .upstream outcome =>
      match fetchBody outcome with
      | .ok (status, latency, body) =>
          some ⟨.fetched m status latency body, c, some (m, body), none⟩
      | .error e => some ⟨.done (.error e), c, none, none⟩
  | .fetched m status latency body, .insert now =>
      match storeBody H c now m status latency body with
      | .ok (result, c) => some ⟨.done (.ok result), c, none, none⟩
      | .error _ => none
  | .done result, .reply => some ⟨.closed result, c, none, response H query result⟩
  | _, _ => none

/-- After its query was answered a connection is read again; without an answer
it is closed. -/
def release (conns : List Conn) (t : Task) (a : Action) (reply : Option Bytes) : List Conn :=
  match t.origin, a with
  | .tcp j, .reply =>
      conns.modify j fun conn => { conn with phase := if reply.isSome then .idle else .closed }
  | _, _ => conns

/-- One event; `none` when it cannot happen. -/
def step (H : Hickory) (s : Server) : Event → Option Server
  | .datagram bytes => some { s with tasks := s.tasks ++ [⟨.udp, bytes, .received⟩] }
  | .accept stream => some { s with conns := s.conns ++ [⟨stream, .idle⟩] }
  | .read j => do
      let conn ← s.conns[j]?
      if conn.phase = .idle then
        match readQuery conn.input with
        | .query q rest =>
            some { s with
              conns := s.conns.set j ⟨rest, .busy⟩
              tasks := s.tasks ++ [⟨.tcp j, q, .received⟩] }
        | _ => some { s with conns := s.conns.set j { conn with phase := .closed } }
      else none
  | .act i a => do
      let t ← s.tasks[i]?
      let adv ← advance H s.cache t.query t.phase a
      some {
        cache := adv.cache
        conns := release s.conns t a adv.reply
        tasks := s.tasks.set i { t with phase := adv.phase }
        fetched := s.fetched ++ adv.fetched.toList
        sent := s.sent ++ adv.reply.toList.map (Sent.mk i) }

/-- A schedule of events. -/
def run (H : Hickory) : Server → List Event → Option Server
  | s, [] => some s
  | s, e :: events => do
      let s ← step H s e
      run H s events

/-- The server before the first client. -/
def start (c : DnsCache) : Server := ⟨c, [], [], [], []⟩

/-! ## what an event can do -/

variable {H : Hickory} {c : DnsCache} {query : Bytes} {s s' : Server}

/-- The actions there are, each in its phase. -/
theorem advance_cases {p : Phase} {a : Action} {adv : Advance}
    (h : advance H c query p a = some adv) :
    (∃ now looked c', p = .received ∧ a = .lookup now ∧
      lookupQuery H c now query = .ok (looked, c') ∧ adv = ⟨looked.phase, c', none, none⟩) ∨
    (∃ m outcome status latency body, p = .waiting m ∧ a = .upstream outcome ∧
      fetchBody outcome = .ok (status, latency, body) ∧
      adv = ⟨.fetched m status latency body, c, some (m, body), none⟩) ∨
    (∃ m outcome e, p = .waiting m ∧ a = .upstream outcome ∧ fetchBody outcome = .error e ∧
      adv = ⟨.done (.error e), c, none, none⟩) ∨
    (∃ m status latency body now c', p = .fetched m status latency body ∧ a = .insert now ∧
      c.put H now m body = .ok c' ∧
      adv = ⟨.done (.ok ⟨rewriteId m.id body, false, some status, some latency⟩), c', none,
        none⟩) ∨
    (∃ result, p = .done result ∧ a = .reply ∧
      adv = ⟨.closed result, c, none, response H query result⟩) := by
  unfold advance at h
  split at h
  · next now =>
      split at h
      · next looked c' hlook =>
          cases h
          exact Or.inl ⟨now, looked, c', rfl, rfl, hlook, rfl⟩
      · cases h
  · next m outcome =>
      split at h
      · next status latency body hfetch =>
          cases h
          exact Or.inr (Or.inl ⟨m, outcome, status, latency, body, rfl, rfl, hfetch, rfl⟩)
      · next e hfetch =>
          cases h
          exact Or.inr (Or.inr (Or.inl ⟨m, outcome, e, rfl, rfl, hfetch, rfl⟩))
  · next m status latency body now =>
      split at h
      · next result c' hstore =>
          cases h
          obtain ⟨_, hput, hresult⟩ := bind_ok_iff.mp hstore
          cases hresult
          exact Or.inr (Or.inr (Or.inr (Or.inl
            ⟨m, status, latency, body, now, c', rfl, rfl, hput, rfl⟩)))
      · cases h
  · next result =>
      cases h
      exact Or.inr (Or.inr (Or.inr (Or.inr ⟨result, rfl, rfl, rfl⟩)))
  · cases h

/-- An event of the network adds at most a task that has just received its
query; an action changes one task, the cache and the records. -/
theorem step_cases {e : Event} (h : step H s e = some s') :
    (s'.cache = s.cache ∧ s'.fetched = s.fetched ∧ s'.sent = s.sent ∧
      (s'.tasks = s.tasks ∨
        ∃ origin asked, s'.tasks = s.tasks ++ [⟨origin, asked, .received⟩])) ∨
    (∃ i a t adv, e = .act i a ∧ s.tasks[i]? = some t ∧
      advance H s.cache t.query t.phase a = some adv ∧
      s'.cache = adv.cache ∧ s'.tasks = s.tasks.set i { t with phase := adv.phase } ∧
      s'.fetched = s.fetched ++ adv.fetched.toList ∧
      s'.sent = s.sent ++ adv.reply.toList.map (Sent.mk i)) := by
  cases e with
  | datagram bytes =>
      cases h
      exact Or.inl ⟨rfl, rfl, rfl, Or.inr ⟨.udp, bytes, rfl⟩⟩
  | accept stream =>
      cases h
      exact Or.inl ⟨rfl, rfl, rfl, Or.inl rfl⟩
  | read j =>
      simp only [step, Option.bind_eq_bind, Option.bind_eq_some_iff] at h
      obtain ⟨conn, _, h⟩ := h
      split at h
      · split at h
        · next q rest _ =>
            cases h
            exact Or.inl ⟨rfl, rfl, rfl, Or.inr ⟨.tcp j, q, rfl⟩⟩
        · cases h
          exact Or.inl ⟨rfl, rfl, rfl, Or.inl rfl⟩
      · cases h
  | act i a =>
      simp only [step, Option.bind_eq_bind, Option.bind_eq_some_iff, Option.some.injEq] at h
      obtain ⟨t, ht, adv, hadv, rfl⟩ := h
      exact Or.inr ⟨i, a, t, adv, rfl, ht, hadv, rfl, rfl, rfl, rfl⟩

/-! ## what clients are sent -/

/-- A body of `log` was fetched for a query with this key. -/
def FetchedUnder (H : Hickory) (log : List (Message × Bytes)) (k body : Bytes) : Prop :=
  ∃ m₀, (m₀, body) ∈ log ∧ cacheKey H m₀ = some k

/-- A reply is, apart from ID and answer TTLs, a body of `log` fetched for a
query with the cache key of `m`. -/
def FromBody (H : Hickory) (log : List (Message × Bytes)) (m : Message) (reply : Bytes) : Prop :=
  ∃ m₀ body, (m₀, body) ∈ log ∧ cacheKey H m₀ = cacheKey H m ∧ SameReply H m.id body reply

/-- What a phase holds is accounted for. -/
def PhaseOk (H : Hickory) (log : List (Message × Bytes)) (query : Bytes) : Phase → Prop
  | .received => True
  | .waiting m => H.fromVec query = some m
  | .fetched m _ _ body => H.fromVec query = some m ∧ (m, body) ∈ log
  | .done result | .closed result =>
      ∀ r, result = .ok r → ∃ m, H.fromVec query = some m ∧ FromBody H log m r.response

/-- A reply is accounted for. -/
def ReplyOk (H : Hickory) (log : List (Message × Bytes)) (query reply : Bytes) : Prop :=
  buildServfail H query = some reply ∨ ∃ m, H.fromVec query = some m ∧ FromBody H log m reply

/-- Everything the server holds or has sent comes from a body it fetched. -/
structure Inv (H : Hickory) (s : Server) : Prop where
  cache : Sourced (FetchedUnder H s.fetched) s.cache
  tasks : ∀ (i : Nat) (t : Task), s.tasks[i]? = some t → PhaseOk H s.fetched t.query t.phase
  sent : ∀ x ∈ s.sent, ∃ t, s.tasks[x.task]? = some t ∧ ReplyOk H s.fetched t.query x.reply
  bodies : ∀ p ∈ s.fetched, 2 ≤ p.2.length

section Records

variable {log log' : List (Message × Bytes)}

/-- What came from a body still does, once more were fetched. -/
theorem FromBody.mono (hsub : log ⊆ log') {m : Message} {reply : Bytes}
    (h : FromBody H log m reply) : FromBody H log' m reply := by
  obtain ⟨m₀, body, hmem, hrest⟩ := h
  exact ⟨m₀, body, hsub hmem, hrest⟩

/-- So it is with what a task has in hand. -/
theorem PhaseOk.mono (hsub : log ⊆ log') {p : Phase} (h : PhaseOk H log query p) :
    PhaseOk H log' query p := by
  cases p with
  | received => trivial
  | waiting m => exact h
  | fetched m status latency body => exact ⟨h.1, hsub h.2⟩
  | done result | closed result =>
      intro r hr
      obtain ⟨m, hm, hbody⟩ := h r hr
      exact ⟨m, hm, hbody.mono hsub⟩

/-- A failure needs no body. -/
theorem phaseOk_error (log : List (Message × Bytes)) (query : Bytes) (e : ResolveError) :
    PhaseOk H log query (.done (.error e)) := by
  intro r hr
  cases hr

/-- And with a reply. -/
theorem ReplyOk.mono (hsub : log ⊆ log') {reply : Bytes} (h : ReplyOk H log query reply) :
    ReplyOk H log' query reply := by
  rcases h with hfail | ⟨m, hm, hbody⟩
  · exact Or.inl hfail
  · exact Or.inr ⟨m, hm, hbody.mono hsub⟩

end Records

/-- One action keeps the cache, the task and its reply accounted for. -/
theorem advance_ok (hrt : H.RoundTrips) {log : List (Message × Bytes)} {p : Phase} {a : Action}
    {adv : Advance} (hc : Sourced (FetchedUnder H log) c) (hp : PhaseOk H log query p)
    (h : advance H c query p a = some adv) :
    Sourced (FetchedUnder H (log ++ adv.fetched.toList)) adv.cache ∧
      PhaseOk H (log ++ adv.fetched.toList) query adv.phase ∧
      ∀ reply, adv.reply = some reply → ReplyOk H (log ++ adv.fetched.toList) query reply := by
  obtain ⟨now, looked, c', rfl, rfl, hlook, rfl⟩ |
    ⟨m, outcome, status, latency, body, rfl, rfl, hfetch, rfl⟩ |
    ⟨m, outcome, e, rfl, rfl, hfetch, rfl⟩ |
    ⟨m, status, latency, body, now, c', rfl, rfl, hput, rfl⟩ | ⟨result, rfl, rfl, rfl⟩ :=
    advance_cases h
  · simp only [Option.toList_none, List.append_nil]
    obtain ⟨hm, rfl, rfl⟩ | ⟨m, b, hm, hget, rfl⟩ | ⟨m, hm, hget, rfl⟩ := lookupQuery_cases hlook
    · exact ⟨hc, phaseOk_error log query .badQuery, by simp⟩
    · obtain ⟨hc', hhit⟩ := hc.get hget
      obtain ⟨k, body, ttl, hk, ⟨m₀, hmem, hk₀⟩, rfl⟩ := hhit b rfl
      refine ⟨hc', fun r hr => ?_, by simp⟩
      cases hr
      exact ⟨m, hm, m₀, body, hmem, hk₀.trans hk.symm, _,
        DnsCache.sameBody_adjustTtls hrt body ttl, DnsCache.length_adjustTtls H body ttl, rfl⟩
    · exact ⟨(hc.get hget).1, hm, by simp⟩
  · have hgrow : ∀ k b, FetchedUnder H log k b → FetchedUnder H (log ++ [(m, body)]) k b := by
      rintro k b ⟨m₀, hmem, hk⟩
      exact ⟨m₀, List.mem_append_left _ hmem, hk⟩
    exact ⟨hc.mono hgrow, ⟨hp, by simp⟩, by simp⟩
  · simp only [Option.toList_none, List.append_nil]
    exact ⟨hc, phaseOk_error log query e, by simp⟩
  · simp only [Option.toList_none, List.append_nil]
    obtain ⟨hm, hmem⟩ := hp
    refine ⟨hc.put (fun k hk => ⟨m, hmem, hk⟩) hput, fun r hr => ?_, by simp⟩
    cases hr
    exact ⟨m, hm, m, body, hmem, rfl, sameReply_rewriteId H m.id body⟩
  · simp only [Option.toList_none, List.append_nil]
    refine ⟨hc, hp, fun reply hreply => ?_⟩
    cases result with
    | error e => exact Or.inl hreply
    | ok r =>
        cases hreply
        exact Or.inr (hp r rfl)

/-- The bodies upstream sends with success have room for an ID. -/
def LongBodies (e : Event) : Prop :=
  ∀ i outcome status latency body, e = .act i (.upstream outcome) →
    fetchBody outcome = .ok (status, latency, body) → 2 ≤ body.length

/-- What is fetched has room for an ID. -/
theorem length_fetched {i : Nat} {p : Phase} {a : Action} {adv : Advance}
    (hlong : LongBodies (.act i a)) (h : advance H c query p a = some adv) :
    ∀ x ∈ adv.fetched.toList, 2 ≤ x.2.length := by
  obtain ⟨_, _, _, rfl, rfl, _, rfl⟩ | ⟨m, outcome, status, latency, body, rfl, rfl, hfetch, rfl⟩ |
    ⟨_, _, _, rfl, rfl, _, rfl⟩ | ⟨_, _, _, _, _, _, rfl, rfl, _, rfl⟩ | ⟨_, rfl, rfl, rfl⟩ :=
    advance_cases h
  case inr.inl =>
    intro x hx
    simp only [Option.toList_some, List.mem_singleton] at hx
    subst hx
    exact hlong i outcome status latency body rfl hfetch
  all_goals simp

/-! ## tasks go on -/

/-- The result of a task that has one. -/
def Phase.result : Phase → Option (Except ResolveError DnsResult)
  | .done result | .closed result => some result
  | _ => none

/-- A later state of the same task: same client, same query, and its result
if it had one. -/
structure Continues (t t' : Task) : Prop where
  origin : t'.origin = t.origin
  asked : t'.asked = t.asked
  result : ∀ r, t.phase.result = some r → t'.phase.result = some r

theorem Continues.refl (t : Task) : Continues t t := ⟨rfl, rfl, fun _ h => h⟩

/-- A task goes on and on. -/
theorem Continues.trans {t t' t'' : Task} (h : Continues t t') (h' : Continues t' t'') :
    Continues t t'' :=
  ⟨h'.origin.trans h.origin, h'.asked.trans h.asked, fun r hr => h'.result r (h.result r hr)⟩

/-- Its query stays the same. -/
theorem Continues.query_eq {t t' : Task} (h : Continues t t') : t'.query = t.query := by
  simp only [Task.query, h.origin, h.asked]

/-- No action changes a result. -/
theorem advance_result {p : Phase} {a : Action} {adv : Advance}
    (h : advance H c query p a = some adv) (r : Except ResolveError DnsResult)
    (hr : p.result = some r) : adv.phase.result = some r := by
  obtain ⟨_, _, _, rfl, _⟩ | ⟨_, _, _, _, _, rfl, _⟩ | ⟨_, _, _, rfl, _⟩ |
    ⟨_, _, _, _, _, _, rfl, _⟩ | ⟨_, rfl, _, rfl⟩ := advance_cases h
  case inr.inr.inr.inr => exact hr
  all_goals cases hr

/-- An event lets each task go on. -/
theorem step_continues {e : Event} (h : step H s e = some s') {i : Nat} {t : Task}
    (ht : s.tasks[i]? = some t) : ∃ t', s'.tasks[i]? = some t' ∧ Continues t t' := by
  obtain ⟨_, _, _, htasks | ⟨origin, asked, htasks⟩⟩ |
    ⟨j, a, u, adv, _, hu, hadv, _, htasks, _, _⟩ := step_cases h
  · exact ⟨t, by rw [htasks, ht], .refl t⟩
  · have hlt := (List.getElem?_eq_some_iff.mp ht).1
    exact ⟨t, by rw [htasks, List.getElem?_append_left hlt, ht], .refl t⟩
  · rw [htasks]
    by_cases hij : j = i
    · subst hij
      have hlt := (List.getElem?_eq_some_iff.mp ht).1
      rw [ht] at hu
      cases hu
      refine ⟨{ t with phase := adv.phase }, List.getElem?_set_self hlt, rfl, rfl, ?_⟩
      exact advance_result hadv
    · exact ⟨t, by rw [List.getElem?_set_ne hij, ht], .refl t⟩

/-- So does every schedule. -/
theorem run_continues {events : List Event} (h : run H s events = some s') {i : Nat} {t : Task}
    (ht : s.tasks[i]? = some t) : ∃ t', s'.tasks[i]? = some t' ∧ Continues t t' := by
  induction events generalizing s t with
  | nil =>
      cases h
      exact ⟨t, ht, .refl t⟩
  | cons e events ih =>
      obtain ⟨s₁, hstep, hrun⟩ := Option.bind_eq_some_iff.mp h
      obtain ⟨t₁, ht₁, hc₁⟩ := step_continues hstep ht
      obtain ⟨t₂, ht₂, hc₂⟩ := ih hrun ht₁
      exact ⟨t₂, ht₂, hc₁.trans hc₂⟩

/-! ## the invariant over runs -/

/-- The invariant holds at the start. -/
theorem inv_start (H : Hickory) {allocates : Nat → Bool} {maxEntries : Nat}
    {minTtl maxTtl : UInt32} (h : DnsCache.new allocates maxEntries minTtl maxTtl = .ok c) :
    Inv H (start c) where
  cache := sourced_new h
  tasks := by simp [start]
  sent := by simp [start]
  bodies := by simp [start]

/-- Every event keeps the invariant. -/
theorem inv_step (hrt : H.RoundTrips) {e : Event} (hlong : LongBodies e) (hinv : Inv H s)
    (h : step H s e = some s') : Inv H s' := by
  have hsent : ∀ x ∈ s.sent, s.fetched ⊆ s'.fetched → ∃ t, s'.tasks[x.task]? = some t ∧
      ReplyOk H s'.fetched t.query x.reply := by
    intro x hx hsub
    obtain ⟨t, ht, hok⟩ := hinv.sent x hx
    obtain ⟨t', ht', hcont⟩ := step_continues h ht
    exact ⟨t', ht', by rw [hcont.query_eq]; exact hok.mono hsub⟩
  obtain ⟨hcache, hfetched, hsame, htasks⟩ |
    ⟨i, a, t, adv, rfl, ht, hadv, hcache, htasks, hfetched, hgrow⟩ := step_cases h
  · refine ⟨?_, ?_, ?_, ?_⟩
    · rw [hcache, hfetched]
      exact hinv.cache
    · intro i t ht
      rw [hfetched]
      obtain htasks | ⟨origin, asked, htasks⟩ := htasks
      · rw [htasks] at ht
        exact hinv.tasks i t ht
      · rw [htasks, List.getElem?_append] at ht
        split at ht
        · exact hinv.tasks i t ht
        · have hnew : t.phase = .received := by
            rw [(List.mem_singleton.mp (List.mem_of_getElem? ht))]
          rw [hnew]
          trivial
    · intro x hx
      rw [hsame] at hx
      exact hsent x hx (by rw [hfetched]; exact List.Subset.refl _)
    · rw [hfetched]
      exact hinv.bodies
  · obtain ⟨hc, hp, hreply⟩ := advance_ok hrt hinv.cache (hinv.tasks i t ht) hadv
    have hsub : s.fetched ⊆ s.fetched ++ adv.fetched.toList := List.subset_append_left _ _
    have hlt := (List.getElem?_eq_some_iff.mp ht).1
    have hself : s'.tasks[i]? = some { t with phase := adv.phase } := by
      rw [htasks, List.getElem?_set_self hlt]
    refine ⟨?_, ?_, ?_, ?_⟩
    · rw [hcache, hfetched]
      exact hc
    · intro j u hu
      rw [hfetched]
      by_cases hij : i = j
      · subst hij
        rw [hself] at hu
        cases hu
        exact hp
      · rw [htasks, List.getElem?_set_ne hij] at hu
        exact (hinv.tasks j u hu).mono hsub
    · intro x hx
      rw [hgrow] at hx
      rcases List.mem_append.mp hx with hx | hx
      · exact hsent x hx (by rw [hfetched]; exact hsub)
      · obtain ⟨reply, hmem, rfl⟩ := List.mem_map.mp hx
        refine ⟨_, hself, ?_⟩
        rw [hfetched]
        exact hreply reply (Option.mem_toList.mp hmem)
    · intro x hx
      rw [hfetched] at hx
      rcases List.mem_append.mp hx with hx | hx
      · exact hinv.bodies x hx
      · exact length_fetched hlong hadv x hx

/-- So does every schedule. -/
theorem inv_run (hrt : H.RoundTrips) {events : List Event}
    (hlong : ∀ e ∈ events, LongBodies e) (hinv : Inv H s)
    (h : run H s events = some s') : Inv H s' := by
  induction events generalizing s with
  | nil =>
      cases h
      exact hinv
  | cons e events ih =>
      obtain ⟨s₁, hstep, hrun⟩ := Option.bind_eq_some_iff.mp h
      have hinv₁ := inv_step hrt (hlong e List.mem_cons_self) hinv hstep
      exact ih (fun x hx => hlong x (List.mem_cons_of_mem e hx)) hinv₁ hrun

/-- A reply that is accounted for starts with the ID of its query. -/
theorem ReplyOk.id_prefix (hid : H.IdFirst) {log : List (Message × Bytes)}
    (hlog : ∀ p ∈ log, 2 ≤ p.2.length) {reply : Bytes} (h : ReplyOk H log query reply) :
    ∃ m, H.fromVec query = some m ∧ be16 m.id <+: reply ∧
      (buildServfail H query = some reply ∨ FromBody H log m reply) := by
  rcases h with hfail | ⟨m, hm, hbody⟩
  · have hbuild := hfail
    obtain ⟨m, hm, henc⟩ := Option.bind_eq_some_iff.mp hbuild
    exact ⟨m, hm, hid.ofToVec (servfail m) reply henc, Or.inl hfail⟩
  · refine ⟨m, hm, ?_, Or.inr hbody⟩
    obtain ⟨m₀, body, hmem, _, served, _, hlen, rfl⟩ := hbody
    have hroom : 2 ≤ served.length := by
      rw [hlen]
      exact hlog _ hmem
    exact be16_prefix_rewriteId m.id hroom

/-! ## failed resolutions -/

/-- The cache is as it was, or a lookup for the query found its entry expired
and dropped it. -/
def DropsExpired (H : Hickory) (query : Bytes) (c : DnsCache) (a : Action) (c' : DnsCache) :
    Prop :=
  c' = c ∨ ∃ now m k e, a = .lookup now ∧ H.fromVec query = some m ∧ cacheKey H m = some k ∧
    c.cache.peek k = some e ∧ e.ttl ≤ now - e.insertedAt ∧
    c' = { c with cache := c.cache.pop k }

/-- Where nothing is found, at most an expired entry is gone. -/
theorem get_none_cases {c' : DnsCache} {now : Nat} {m : Message}
    (h : c.get H now m = .ok (none, c')) :
    c' = c ∨ ∃ k e, cacheKey H m = some k ∧ c.cache.peek k = some e ∧
      e.ttl ≤ now - e.insertedAt ∧ c' = { c with cache := c.cache.pop k } := by
  cases hk : cacheKey H m with
  | none =>
      rw [DnsCache.get_of_no_key hk] at h
      cases h
      exact Or.inl rfl
  | some k =>
      cases hpeek : c.cache.peek k with
      | none =>
          rw [DnsCache.get_of_absent hk hpeek] at h
          cases h
          exact Or.inl rfl
      | some e =>
          by_cases hexp : e.ttl ≤ now - e.insertedAt
          · rw [DnsCache.get_of_expired hk hpeek hexp] at h
            cases h
            exact Or.inr ⟨k, e, rfl, hpeek, hexp, rfl⟩
          · rw [DnsCache.get_of_live hk hpeek hexp] at h
            cases h

/-- An action stores something only on the way to success. -/
theorem advance_dropsExpired {p : Phase} {a : Action} {adv : Advance}
    (h : advance H c query p a = some adv)
    (hfail : ∀ r, adv.phase.result ≠ some (.ok r)) : DropsExpired H query c a adv.cache := by
  obtain ⟨now, looked, c', rfl, rfl, hlook, rfl⟩ | ⟨_, _, _, _, _, rfl, rfl, _, rfl⟩ |
    ⟨_, _, _, rfl, rfl, _, rfl⟩ | ⟨_, _, _, _, _, _, rfl, rfl, _, rfl⟩ | ⟨_, rfl, rfl, rfl⟩ :=
    advance_cases h
  · obtain ⟨_, rfl, rfl⟩ | ⟨m, b, _, _, rfl⟩ | ⟨m, hm, hget, rfl⟩ := lookupQuery_cases hlook
    · exact Or.inl rfl
    · exact absurd rfl (hfail _)
    · obtain hsame | ⟨k, e, hk, hpeek, hexp, hpop⟩ := get_none_cases hget
      · exact Or.inl hsame
      · exact Or.inr ⟨now, m, k, e, rfl, hm, hk, hpeek, hexp, hpop⟩
  · exact Or.inl rfl
  · exact Or.inl rfl
  · exact absurd rfl (hfail _)
  · exact Or.inl rfl

/-- One schedule after another. -/
theorem run_append (s : Server) (pre post : List Event) :
    run H s (pre ++ post) = (run H s pre).bind fun s₁ => run H s₁ post := by
  induction pre generalizing s with
  | nil => rfl
  | cons e pre ih =>
      cases hstep : step H s e with
      | none => simp [run, hstep]
      | some s₁ => simp [run, hstep, ih]

/-- An action of a task that ends in failure stores nothing. -/
theorem act_dropsExpired {i : Nat} {a : Action} {post : List Event} {s₁ s₂ : Server} {t : Task}
    {e : ResolveError} (hstep : step H s₁ (.act i a) = some s₂)
    (hpost : run H s₂ post = some s) (ht : s.tasks[i]? = some t)
    (hfailed : t.phase.result = some (.error e)) :
    DropsExpired H t.query s₁.cache a s₂.cache := by
  simp only [step, Option.bind_eq_bind, Option.bind_eq_some_iff, Option.some.injEq] at hstep
  obtain ⟨t₁, ht₁, adv, hadv, rfl⟩ := hstep
  have hlt := (List.getElem?_eq_some_iff.mp ht₁).1
  obtain ⟨t', ht', hcont⟩ := run_continues hpost (List.getElem?_set_self hlt)
  rw [ht] at ht'
  cases ht'
  have hquery : t.query = t₁.query := hcont.query_eq
  have hfail : ∀ r, adv.phase.result ≠ some (.ok r) := by
    intro r hr
    have hr' := hcont.result _ hr
    rw [hfailed] at hr'
    cases hr'
  rw [hquery]
  exact advance_dropsExpired hadv hfail

/-- **Concurrent queries.**  In any schedule, every reply starts with the ID
its client sent and is the SERVFAIL of that query or, apart from ID and answer
TTLs, a body fetched for a query with the same cache key; and no action of a
resolution that fails changes the cache, except that its lookup drops the
entry of its own key when that has expired. -/
theorem server_replies (H : Hickory) (hrt : H.RoundTrips) (hid : H.IdFirst)
    (allocates : Nat → Bool) (maxEntries : Nat) (minTtl maxTtl : UInt32) (c₀ : DnsCache)
    (hnew : DnsCache.new allocates maxEntries minTtl maxTtl = .ok c₀) (events : List Event)
    (hlong : ∀ e ∈ events, LongBodies e) (s : Server)
    (hrun : run H (start c₀) events = some s) :
    (∀ x ∈ s.sent, ∃ t m, s.tasks[x.task]? = some t ∧ H.fromVec t.query = some m ∧
      be16 m.id <+: t.asked ∧ be16 m.id <+: x.reply ∧
      (buildServfail H t.query = some x.reply ∨ FromBody H s.fetched m x.reply)) ∧
    (∀ pre i a post s₁ s₂ t e, events = pre ++ .act i a :: post →
      run H (start c₀) pre = some s₁ → step H s₁ (.act i a) = some s₂ →
      s.tasks[i]? = some t → t.phase.result = some (.error e) →
      DropsExpired H t.query s₁.cache a s₂.cache) := by
  have hinv := inv_run hrt hlong (inv_start H hnew) hrun
  constructor
  · intro x hx
    obtain ⟨t, ht, hok⟩ := hinv.sent x hx
    obtain ⟨m, hm, hpre, hreply⟩ := hok.id_prefix hid hinv.bodies
    have hasked : t.query <+: t.asked := by
      unfold Task.query
      split
      · exact List.take_prefix _ _
      · exact List.prefix_refl _
    exact ⟨t, m, ht, hm, (hid.ofFromVec _ _ hm).trans hasked, hpre, hreply⟩
  · intro pre i a post s₁ s₂ t e hevents hpre hstep ht hfailed
    rw [hevents, run_append, hpre] at hrun
    have hpost : run H s₂ post = some s := by simpa [run, hstep] using hrun
    exact act_dropsExpired hstep hpost ht hfailed

/-- A server with a cache of two entries, after some events. -/
def serve (events : List Event) : Option Server :=
  match DnsCache.new (fun _ => true) 2 60 86400 with
  | .ok c => run Wire.wire (start c) events
  | .error _ => none

/-- A query is resolved and cached, and a second client asks the same. -/
def askedTwice : List Event :=
  [.datagram (askBytes false), .act 0 (.lookup 0),
    .act 0 (.upstream (.response 200 5 (some DnsCache.answerA))), .act 0 (.insert 0),
    .act 0 .reply, .datagram (askBytes false)]

/-- The second is looked up after 1000 seconds, and upstream does not answer. -/
def secondFails : List Event :=
  [.act 1 (.lookup (Duration.fromSecs 1000)), .act 1 (.upstream .requestError)]

/-- The second resolution fails, and the entry the first one stored is gone. -/
theorem failed_resolution_drops_entry :
    (serve askedTwice).map (fun s => s.cache.cache.entries.length) = some 1 ∧
      (serve (askedTwice ++ secondFails)).map
          (fun s => (s.cache.cache.entries.length, s.tasks[1]?.bind fun t => t.phase.result)) =
        some (0, some (.error .request)) := by
  decide +kernel

/-- Both clients get a reply to their ID. -/
theorem server_replies_twice :
    ∃ s, serve (askedTwice ++ secondFails ++ [.act 1 .reply]) = some s ∧ s.sent.length = 2 ∧
      ∀ x ∈ s.sent, ∃ t m, s.tasks[x.task]? = some t ∧ Wire.wire.fromVec t.query = some m ∧
        be16 m.id <+: x.reply := by
  have hsent : (serve (askedTwice ++ secondFails ++ [.act 1 .reply])).map
      (fun s => s.sent.length) = some 2 := by
    decide +kernel
  obtain ⟨s, hrun, hlen⟩ := Option.map_eq_some_iff.mp hsent
  refine ⟨s, hrun, hlen, ?_⟩
  have hlong : ∀ e ∈ askedTwice ++ secondFails ++ [.act 1 .reply], LongBodies e := by
    rintro e he i outcome status latency body rfl hfetch
    simp only [askedTwice, secondFails, List.cons_append, List.nil_append, List.mem_cons,
      reduceCtorEq, Event.act.injEq, Action.upstream.injEq, false_or, or_false, and_false,
      List.not_mem_nil] at he
    obtain ⟨rfl, rfl⟩ | ⟨rfl, rfl⟩ := he
    · cases hfetch
      decide
    · cases hfetch
  obtain ⟨hreplies, _⟩ := server_replies Wire.wire Wire.roundTrips_wire Wire.idFirst_wire
    (fun _ => true) 2 60 86400 _ rfl _ hlong s hrun
  intro x hx
  obtain ⟨t, m, ht, hm, _, hpre, _⟩ := hreplies x hx
  exact ⟨t, m, ht, hm, hpre⟩

end Zebrafish.Dns
