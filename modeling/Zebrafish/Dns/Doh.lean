import Zebrafish.Dns.Serve

/-!
# Zebrafish.Dns.Doh

`DohClient::resolve` (`doh.rs`): answer a query from the cache, or forward it
upstream, cache the body and answer with that.

The function is cut where it waits: `lookupQuery` up to the request,
`fetchBody` for what came back, `storeBody` after it.  `resolve` runs the
three in a row; the server (`Zebrafish.Dns.Server`) interleaves them.

Where bodies come from is one invariant, `Sourced`: every cached body meets a
relation between keys and bodies.  For a sequence of queries the relation is
"upstream gave this body to an earlier query with this key", and
`resolveAll_replies` reads the replies off it: each is the upstream body of
the query itself or of an earlier one with the same key.  An upstream copies
the ID of a query, so bodies are compared apart from it (`Alike`); a reply gets
the ID of its own query in any case.
-/

namespace Zebrafish.Dns

open Lru Rust
open DnsCache (cacheKey adjustTtls SameBody)

/-- What became of an upstream request: no HTTP response (also when the
request could not be built), or a status, the time it took and the body,
unless that broke off. -/
inductive Upstream
  | requestError
  | response (status : UInt16) (latencyMs : UInt64) (body : Option Bytes)

/-- Why `resolve` failed. -/
inductive ResolveError
  | badQuery
  | request
  | status (code : UInt16)
  | body
deriving DecidableEq

structure DnsResult where
  response : Bytes
  cached : Bool
  upstreamStatus : Option UInt16
  upstreamLatencyMs : Option UInt64
deriving DecidableEq

/-- `StatusCode::is_success`. -/
def isSuccess (status : UInt16) : Bool := 200 ≤ status && status < 300

/-- Overwrite the ID bytes of a response long enough to have them. -/
def rewriteId (id : UInt16) (response : Bytes) : Bytes :=
  if 2 ≤ response.length then
    (response.set 0 (id >>> 8).toUInt8).set 1 (id &&& 0xff).toUInt8
  else response

/-- What the cache had to say about a query. -/
inductive Looked
  | badQuery
  | hit (result : DnsResult)
  | miss (query : Message)

/-- Parse the query and look it up. -/
def lookupQuery (H : Hickory) (c : DnsCache) (now : Nat) (queryBytes : Bytes) :
    Except Panic (Looked × DnsCache) :=
  match H.fromVec queryBytes with
  | none => .ok (.badQuery, c)
  | some query => do
      let (cached, c) ← c.get H now query
      match cached with
      | some cached => pure (.hit ⟨rewriteId query.id cached, true, none, none⟩, c)
      | none => pure (.miss query, c)

/-- The status, latency and body of a successful request. -/
def fetchBody : Upstream → Except ResolveError (UInt16 × UInt64 × Bytes)
  | .requestError => .error .request
  | .response status latency body =>
      if isSuccess status then
        match body with
        | some body => .ok (status, latency, body)
        | none => .error .body
      else .error (.status status)

/-- Cache a body and answer the query with it. -/
def storeBody (H : Hickory) (c : DnsCache) (now : Nat) (query : Message) (status : UInt16)
    (latency : UInt64) (body : Bytes) : Except Panic (DnsResult × DnsCache) := do
  let c ← c.put H now query body
  pure (⟨rewriteId query.id body, false, some status, some latency⟩, c)

/-- Resolve a query: looked up at `now`, and after a miss stored at `later`,
`outcome` being what the request comes back with. -/
def resolve (H : Hickory) (c : DnsCache) (now later : Nat) (outcome : Upstream)
    (queryBytes : Bytes) : Except Panic (Except ResolveError DnsResult × DnsCache) := do
  let (looked, c) ← lookupQuery H c now queryBytes
  match looked with
  | .badQuery => pure (.error .badQuery, c)
  | .hit result => pure (.ok result, c)
  | .miss query =>
      match fetchBody outcome with
      | .error e => pure (.error e, c)
      | .ok (status, latency, body) => do
          let (result, c) ← storeBody H c later query status latency body
          pure (.ok result, c)

/-! ## the ID -/

/-- Rewriting the ID keeps the length. -/
@[simp] theorem length_rewriteId (id : UInt16) (b : Bytes) :
    (rewriteId id b).length = b.length := by
  unfold rewriteId
  split <;> simp

/-- The ID bytes are the two bytes of the ID, most significant first. -/
theorem rewriteId_cons (id : UInt16) (x y : UInt8) (rest : Bytes) :
    rewriteId id (x :: y :: rest) = Format.be16 id ++ rest := by
  have hlo : (id &&& 0xff).toUInt8 = id.toUInt8 := by
    apply UInt8.toNat_inj.mp
    have hmask : UInt16.toNat 255 = 2 ^ 8 - 1 := rfl
    simp only [UInt16.toNat_toUInt8, UInt16.toNat_and, hmask, Nat.and_two_pow_sub_one_eq_mod]
    omega
  simp [rewriteId, Format.be16, hlo]

/-- The last ID written is the one that stays. -/
theorem rewriteId_rewriteId (id id' : UInt16) (b : Bytes) :
    rewriteId id (rewriteId id' b) = rewriteId id b := by
  match b with
  | [] | [_] => rfl
  | x :: y :: rest =>
      rw [rewriteId_cons id' x y, rewriteId_cons id x y]
      exact rewriteId_cons id _ _ rest

/-- A body with room for an ID starts with it after rewriting. -/
theorem be16_prefix_rewriteId (id : UInt16) {b : Bytes} (h : 2 ≤ b.length) :
    Format.be16 id <+: rewriteId id b := by
  obtain ⟨x, y, rest, rfl⟩ : ∃ x y rest, b = x :: y :: rest := by
    match b with
    | [] | [_] => simp at h
    | x :: y :: rest => exact ⟨x, y, rest, rfl⟩
  exact ⟨rest, by rw [rewriteId_cons]⟩

/-- `reply` is `body` under a given ID, up to the TTLs of its answers. -/
def SameReply (H : Hickory) (id : UInt16) (body reply : Bytes) : Prop :=
  ∃ served, SameBody H body served ∧ served.length = body.length ∧ reply = rewriteId id served

/-- A body is itself with another ID. -/
theorem sameReply_rewriteId (H : Hickory) (id : UInt16) (body : Bytes) :
    SameReply H id body (rewriteId id body) := ⟨body, SameBody.refl H body, rfl, rfl⟩

/-- Other ID bytes make another ID and nothing else. -/
def Hickory.IdApart (H : Hickory) : Prop :=
  ∀ id b, 2 ≤ b.length → H.fromVec (rewriteId id b) = (H.fromVec b).map (Message.setId id)

namespace Wire

open Format

/-- A header is an ID and the rest. -/
theorem header_get (x y : UInt8) (s : Bytes) :
    header.get (x :: y :: s) =
      (u16.get s).map fun p => (unpackFlags (ofBe16 x y) p.1.toNat, p.2) := by
  cases h : u16.get s <;> simp [header, view, seq, Format.bind, u16] at h ⊢ <;> simp [h]

/-- The ID bytes of a message say its ID, and the rest does not depend on them. -/
theorem fromVec_setId (x y : UInt8) (s : Bytes) :
    wire.fromVec (x :: y :: s) = (wire.fromVec (0 :: 0 :: s)).map (Message.setId (ofBe16 x y)) := by
  simp only [wire, message, view, sections, seq, Format.bind, header_get]
  cases u16.get s with
  | none => rfl
  | some p =>
      simp only [Option.map_some, Option.bind_some, Option.bind_eq_bind, Option.pure_def,
        Option.bind_assoc, Option.map_bind, Function.comp_def]
      -- the counts and the sections do not depend on the ID
      iterate 8 refine Option.bind_congr fun _ _ => ?_
      cases splitAdditionals _ <;> simp [Message.setId, unpackFlags]

/-- The codec of the wire form reads bodies alike apart from the ID. -/
theorem idApart_wire : wire.IdApart := by
  intro id b hb
  match b with
  | [] | [_] => simp at hb
  | x :: y :: s =>
      rw [rewriteId_cons, fromVec_setId x y]
      exact (fromVec_setId _ _ s).trans (by rw [ofBe16_be16, Option.map_map]; rfl)

end Wire

/-! ## bodies alike -/

/-- Two bodies that differ at most in their ID bytes, or one and the same
error. -/
def Alike : Except ResolveError Bytes → Except ResolveError Bytes → Prop
  | .error e, .error e' => e = e'
  | .ok body, .ok body' => rewriteId 0 body = rewriteId 0 body'
  | _, _ => False

/-- A body is alike under every ID. -/
theorem alike_rewriteId (id id' : UInt16) (body : Bytes) :
    Alike (.ok (rewriteId id body)) (.ok (rewriteId id' body)) := by
  rw [Alike, rewriteId_rewriteId, rewriteId_rewriteId]

/-- Of two bodies alike, each is the other under some ID, where they have room
for one. -/
theorem eq_rewriteId_of_alike {body body' : Bytes} (h : Alike (.ok body) (.ok body')) :
    body = body' ∨ 2 ≤ body'.length ∧ ∃ id, body = rewriteId id body' := by
  have h : rewriteId 0 body = rewriteId 0 body' := h
  have hlen : body.length = body'.length := by
    rw [← length_rewriteId 0 body, h, length_rewriteId]
  by_cases hroom : 2 ≤ body'.length
  · match body, body' with
    | x :: y :: rest, x' :: y' :: rest' =>
        rw [rewriteId_cons, rewriteId_cons] at h
        obtain rfl := List.append_cancel_left h
        refine Or.inr ⟨hroom, Format.ofBe16 x y, ?_⟩
        rw [rewriteId_cons, Format.be16_ofBe16]
        rfl
    | [_], _ :: _ :: _ | [], _ :: _ :: _ => simp at hlen
    | _, [] | _, [_] => simp at hroom
  · refine Or.inl ?_
    rwa [rewriteId, rewriteId, if_neg (by omega), if_neg hroom] at h

/-- An ID written over both keeps bodies the same up to answer TTLs. -/
theorem sameBody_rewriteId {H : Hickory} (hapart : H.IdApart) {body served : Bytes}
    (hroom : 2 ≤ body.length) (hlen : served.length = body.length) (h : SameBody H body served)
    (id : UInt16) : SameBody H (rewriteId id body) (rewriteId id served) := by
  unfold SameBody
  rw [hapart id body hroom, hapart id served (by omega)]
  constructor
  · intro hnone
    rw [h.1 (Option.map_eq_none_iff.mp hnone)]
  · intro m hm
    obtain ⟨m₀, hm₀, rfl⟩ := Option.map_eq_some_iff.mp hm
    obtain ⟨m', hm', hdrop⟩ := h.2 m₀ hm₀
    exact ⟨m'.setId id, by rw [hm', Option.map_some], congrArg (Message.setId id) hdrop⟩

/-- What is a reply for one of two bodies alike is one for the other. -/
theorem sameReply_of_alike {H : Hickory} (hapart : H.IdApart) {id : UInt16}
    {body body' reply : Bytes} (h : Alike (.ok body) (.ok body'))
    (hreply : SameReply H id body' reply) : SameReply H id body reply := by
  obtain ⟨served, hserved, hlen, rfl⟩ := hreply
  obtain rfl | ⟨hroom, id', rfl⟩ := eq_rewriteId_of_alike h
  · exact ⟨served, hserved, hlen, rfl⟩
  · exact ⟨rewriteId id' served, sameBody_rewriteId hapart hroom hlen hserved id', by simp [hlen],
      (rewriteId_rewriteId id id' served).symm⟩

/-! ## one query -/

/-- How a lookup can end. -/
theorem lookupQuery_cases {H : Hickory} {c c' : DnsCache} {now : Nat} {queryBytes : Bytes}
    {looked : Looked} (h : lookupQuery H c now queryBytes = .ok (looked, c')) :
    (H.fromVec queryBytes = none ∧ looked = .badQuery ∧ c' = c) ∨
    (∃ m b, H.fromVec queryBytes = some m ∧ c.get H now m = .ok (some b, c') ∧
      looked = .hit ⟨rewriteId m.id b, true, none, none⟩) ∨
    (∃ m, H.fromVec queryBytes = some m ∧ c.get H now m = .ok (none, c') ∧
      looked = .miss m) := by
  unfold lookupQuery at h
  cases hm : H.fromVec queryBytes with
  | none =>
      rw [hm] at h
      cases h
      exact Or.inl ⟨rfl, rfl, rfl⟩
  | some m =>
      rw [hm] at h
      obtain ⟨⟨answer, c₁⟩, hget, hrest⟩ := bind_ok_iff.mp h
      cases answer with
      | some b =>
          cases hrest
          exact Or.inr (Or.inl ⟨m, b, rfl, hget, rfl⟩)
      | none =>
          cases hrest
          exact Or.inr (Or.inr ⟨m, rfl, hget, rfl⟩)

/-- How `resolve` can end: on a query that does not parse, a hit, a failed
request, or a body stored. -/
theorem resolve_cases {H : Hickory} {c c' : DnsCache} {now later : Nat} {outcome : Upstream}
    {queryBytes : Bytes} {r : Except ResolveError DnsResult}
    (h : resolve H c now later outcome queryBytes = .ok (r, c')) :
    (H.fromVec queryBytes = none ∧ r = .error .badQuery ∧ c' = c) ∨
    (∃ m b, H.fromVec queryBytes = some m ∧ c.get H now m = .ok (some b, c') ∧
      r = .ok ⟨rewriteId m.id b, true, none, none⟩) ∨
    (∃ m e, H.fromVec queryBytes = some m ∧ c.get H now m = .ok (none, c') ∧
      fetchBody outcome = .error e ∧ r = .error e) ∨
    (∃ m c₁ status latency body, H.fromVec queryBytes = some m ∧
      c.get H now m = .ok (none, c₁) ∧ fetchBody outcome = .ok (status, latency, body) ∧
      c₁.put H later m body = .ok c' ∧
      r = .ok ⟨rewriteId m.id body, false, some status, some latency⟩) := by
  obtain ⟨⟨looked, c₁⟩, hlook, hrest⟩ := bind_ok_iff.mp h
  obtain ⟨hm, rfl, rfl⟩ | ⟨m, b, hm, hget, rfl⟩ | ⟨m, hm, hget, rfl⟩ := lookupQuery_cases hlook
  · cases hrest
    exact Or.inl ⟨hm, rfl, rfl⟩
  · cases hrest
    exact Or.inr (Or.inl ⟨m, b, hm, hget, rfl⟩)
  · cases hfetch : fetchBody outcome with
    | error e =>
        simp only [hfetch] at hrest
        cases hrest
        exact Or.inr (Or.inr (Or.inl ⟨m, e, hm, hget, rfl, rfl⟩))
    | ok fetched =>
        obtain ⟨status, latency, body⟩ := fetched
        simp only [hfetch] at hrest
        obtain ⟨⟨result, c₂⟩, hstore, hlast⟩ := bind_ok_iff.mp hrest
        obtain ⟨c₃, hput, hresult⟩ := bind_ok_iff.mp hstore
        cases hresult
        cases hlast
        exact Or.inr (Or.inr (Or.inr ⟨m, c₁, status, latency, body, hm, hget, rfl, hput, rfl⟩))

/-! ## where bodies come from -/

/-- Every cached body stands in a relation to its key. -/
def Sourced (P : Bytes → Bytes → Prop) (c : DnsCache) : Prop :=
  ∀ k e, c.cache.peek k = some e → P k e.response

section Sourced

variable {H : Hickory} {P : Bytes → Bytes → Prop} {c c' : DnsCache} {now : Nat} {q : Message}

/-- Where bodies may come from may be weakened. -/
theorem Sourced.mono {Q : Bytes → Bytes → Prop} (h : Sourced P c)
    (hPQ : ∀ k body, P k body → Q k body) : Sourced Q c :=
  fun k e he => hPQ k e.response (h k e he)

/-- A new cache has no bodies. -/
theorem sourced_new {allocates : Nat → Bool} {maxEntries : Nat} {minTtl maxTtl : UInt32}
    (h : DnsCache.new allocates maxEntries minTtl maxTtl = .ok c) : Sourced P c := by
  have hagrees := (DnsCache.agrees_new ⟨fun _ => none, fun _ => none, fun _ => []⟩ 0 h).1
  intro k e he
  cases (hagrees.stored k e he).1

/-- A lookup keeps the cached bodies; a hit serves one of them. -/
theorem Sourced.get {answer : Option Bytes} (h : Sourced P c)
    (hget : c.get H now q = .ok (answer, c')) :
    Sourced P c' ∧ ∀ b, answer = some b →
      ∃ k body ttl, cacheKey H q = some k ∧ P k body ∧ b = adjustTtls H body ttl := by
  cases hq : cacheKey H q with
  | none =>
      rw [DnsCache.get_of_no_key hq] at hget
      cases hget
      exact ⟨h, fun b hb => by cases hb⟩
  | some k =>
      cases hpeek : c.cache.peek k with
      | none =>
          rw [DnsCache.get_of_absent hq hpeek] at hget
          cases hget
          exact ⟨h, fun b hb => by cases hb⟩
      | some e =>
          by_cases hexp : e.ttl ≤ now - e.insertedAt
          · rw [DnsCache.get_of_expired hq hpeek hexp] at hget
            cases hget
            refine ⟨fun x e' he => ?_, fun b hb => by cases hb⟩
            by_cases hx : x = k
            · subst hx
              rw [LruCache.peek_pop_self] at he
              cases he
            · rw [LruCache.peek_pop_of_ne _ hx] at he
              exact h x e' he
          · rw [DnsCache.get_of_live hq hpeek hexp] at hget
            cases hget
            refine ⟨fun x e' he => ?_, fun b hb => ?_⟩
            · by_cases hx : x = k
              · subst hx
                rw [LruCache.peek_put_self] at he
                cases he
                exact h x e hpeek
              · exact h x e' (LruCache.peek_of_peek_put hx he)
            · cases hb
              exact ⟨k, e.response, _, rfl, h k e hpeek, rfl⟩

/-- Storing a body keeps them too, if the new one qualifies. -/
theorem Sourced.put {response : Bytes} (h : Sourced P c)
    (hP : ∀ k, cacheKey H q = some k → P k response)
    (hput : c.put H now q response = .ok c') : Sourced P c' := by
  cases hq : cacheKey H q with
  | none =>
      rw [DnsCache.put_of_no_key hq] at hput
      cases hput
      exact h
  | some k =>
      by_cases hle : c.minTtl ≤ c.maxTtl
      · rw [DnsCache.put_of_key hq hle] at hput
        cases hput
        intro x e he
        by_cases hx : x = k
        · subst hx
          rw [LruCache.peek_put_self] at he
          cases he
          exact hP x hq
        · exact h x e (LruCache.peek_of_peek_put hx he)
      · simp [DnsCache.put, hq, clamp_of_not_le hle, bind, Except.bind] at hput

end Sourced

/-! ## a sequence of queries -/

/-- A query to resolve, when, and what upstream has for it. -/
structure Ask where
  queryBytes : Bytes
  now : Nat
  later : Nat
  outcome : Upstream

/-- Resolve queries one after the other. -/
def resolveAll (H : Hickory) :
    DnsCache → List Ask → Except Panic (List (Except ResolveError DnsResult) × DnsCache)
  | c, [] => pure ([], c)
  | c, a :: asks => do
      let (r, c) ← resolve H c a.now a.later a.outcome a.queryBytes
      let (rs, c) ← resolveAll H c asks
      pure (r :: rs, c)

/-- The body an outcome has for the client, or the error. -/
def bodyOf (outcome : Upstream) : Except ResolveError Bytes :=
  (fetchBody outcome).map fun fetched => fetched.2.2

/-- Upstream answers the queries of a sequence as a fixed function of the
message. -/
def AnsweredBy (H : Hickory) (f : Message → Except ResolveError Bytes) (asks : List Ask) : Prop :=
  ∀ a ∈ asks, ∀ m, H.fromVec a.queryBytes = some m → bodyOf a.outcome = f m

/-- `r` is what a client with the given ID gets, without a cache, when upstream
has `fetched` for it, up to answer TTLs. -/
def RepliesWith (H : Hickory) (id : UInt16) (fetched : Except ResolveError Bytes)
    (r : Except ResolveError DnsResult) : Prop :=
  match fetched, r with
  | .error e, .error e' => e' = e
  | .ok body, .ok result => SameReply H id body result.response
  | _, _ => False

/-- Outcomes alike ask for the same replies. -/
theorem repliesWith_of_alike {H : Hickory} (hapart : H.IdApart) {id : UInt16}
    {fetched fetched' : Except ResolveError Bytes} {r : Except ResolveError DnsResult}
    (h : Alike fetched fetched') (hr : RepliesWith H id fetched' r) :
    RepliesWith H id fetched r := by
  cases fetched with
  | error e =>
      cases fetched' with
      | error e' => exact (show e = e' from h) ▸ hr
      | ok body' => exact h.elim
  | ok body =>
      cases fetched' with
      | error e' => exact h.elim
      | ok body' =>
          cases r with
          | error e => exact hr.elim
          | ok result => exact sameReply_of_alike hapart h hr

/-- A query of `past` asked `m₀`. -/
def Asked (H : Hickory) (past : List Ask) (m₀ : Message) : Prop :=
  ∃ a ∈ past, H.fromVec a.queryBytes = some m₀

/-- Upstream gave a body to an earlier query with this key. -/
def FetchedFor (H : Hickory) (f : Message → Except ResolveError Bytes) (past : List Ask)
    (k body : Bytes) : Prop :=
  ∃ m₀, Asked H past m₀ ∧ cacheKey H m₀ = some k ∧ f m₀ = .ok body

/-- Two queries cached under one key. -/
def SameKey (H : Hickory) (m m' : Message) : Prop :=
  ∃ k, cacheKey H m = some k ∧ cacheKey H m' = some k

/-- The reply to a query is the one upstream has for it, or for an earlier
query with the same cache key. -/
def Answered (H : Hickory) (f : Message → Except ResolveError Bytes) (past : List Ask) (a : Ask)
    (r : Except ResolveError DnsResult) : Prop :=
  match H.fromVec a.queryBytes with
  | none => r = .error .badQuery
  | some m => ∃ m₀, (m₀ = m ∨ Asked H past m₀ ∧ SameKey H m m₀) ∧
      RepliesWith H m.id (f m₀) r

variable {H : Hickory} {f : Message → Except ResolveError Bytes} {c c' : DnsCache}

/-- What was asked stays asked. -/
theorem Asked.mono {past past' : List Ask} (h : past ⊆ past') {m₀ : Message}
    (hm : Asked H past m₀) : Asked H past' m₀ := by
  obtain ⟨a, ha, hdec⟩ := hm
  exact ⟨a, h ha, hdec⟩

/-- Resolving one query keeps the cache sourced in the queries so far, and
answers it from them. -/
theorem answered_resolve (hrt : H.RoundTrips) {past : List Ask} {a : Ask}
    {r : Except ResolveError DnsResult} (h : Sourced (FetchedFor H f past) c)
    (hf : ∀ m, H.fromVec a.queryBytes = some m → bodyOf a.outcome = f m)
    (hrun : resolve H c a.now a.later a.outcome a.queryBytes = .ok (r, c')) :
    Sourced (FetchedFor H f (past ++ [a])) c' ∧ Answered H f past a r := by
  have hgrow : ∀ k body, FetchedFor H f past k body → FetchedFor H f (past ++ [a]) k body := by
    rintro k body ⟨m₀, hasked, hk, hbody⟩
    exact ⟨m₀, hasked.mono (List.subset_append_left past [a]), hk, hbody⟩
  unfold Answered
  obtain ⟨hm, rfl, rfl⟩ | ⟨m, b, hm, hget, rfl⟩ | ⟨m, e, hm, hget, hfetch, rfl⟩ |
    ⟨m, c₁, status, latency, body, hm, hget, hfetch, hput, rfl⟩ := resolve_cases hrun
  · rw [hm]
    exact ⟨h.mono hgrow, rfl⟩
  · rw [hm]
    obtain ⟨hc', hhit⟩ := h.get hget
    obtain ⟨k, body, ttl, hk, ⟨m₀, hasked, hk₀, hbody⟩, rfl⟩ := hhit b rfl
    refine ⟨hc'.mono hgrow, m₀, Or.inr ⟨hasked, k, hk, hk₀⟩, ?_⟩
    rw [hbody]
    exact ⟨_, DnsCache.sameBody_adjustTtls hrt body ttl, DnsCache.length_adjustTtls H body ttl, rfl⟩
  · rw [hm]
    have herr : f m = .error e := by rw [← hf m hm, bodyOf, hfetch]; rfl
    refine ⟨(h.get hget).1.mono hgrow, m, Or.inl rfl, ?_⟩
    rw [herr]
    rfl
  · rw [hm]
    have hbody : f m = .ok body := by rw [← hf m hm, bodyOf, hfetch]; rfl
    have hnew : ∀ k, cacheKey H m = some k → FetchedFor H f (past ++ [a]) k body :=
      fun k hk => ⟨m, ⟨a, by simp, hm⟩, hk, hbody⟩
    refine ⟨((h.get hget).1.mono hgrow).put hnew hput, m, Or.inl rfl, ?_⟩
    rw [hbody]
    exact sameReply_rewriteId H m.id body

/-- Every query of a sequence is answered from the queries up to it. -/
theorem answered_resolveAll (hrt : H.RoundTrips) {asks : List Ask} (past : List Ask)
    {rs : List (Except ResolveError DnsResult)} (h : Sourced (FetchedFor H f past) c)
    (hf : AnsweredBy H f asks) (hrun : resolveAll H c asks = .ok (rs, c')) :
    rs.length = asks.length ∧ ∀ i a r, asks[i]? = some a → rs[i]? = some r →
      Answered H f (past ++ asks.take i) a r := by
  induction asks generalizing c past rs with
  | nil =>
      cases hrun
      exact ⟨rfl, by simp⟩
  | cons a asks ih =>
      obtain ⟨⟨r, c₁⟩, hone, hrest⟩ := bind_ok_iff.mp hrun
      obtain ⟨⟨rs', c₂⟩, hall, hlast⟩ := bind_ok_iff.mp hrest
      cases hlast
      obtain ⟨h₁, hans⟩ := answered_resolve hrt h (hf a List.mem_cons_self) hone
      obtain ⟨hlen, hans'⟩ :=
        ih (past ++ [a]) h₁ (fun a' ha' => hf a' (List.mem_cons_of_mem a ha')) hall
      refine ⟨by simp [hlen], ?_⟩
      intro i a' r' ha' hr'
      cases i with
      | zero =>
          cases ha'
          cases hr'
          simpa using hans
      | succ i => simpa using hans' i a' r' ha' hr'

/-- With the TTL bounds in order, a query is always resolved. -/
theorem resolve_ok (H : Hickory) (hle : c.minTtl ≤ c.maxTtl) (now later : Nat)
    (outcome : Upstream) (queryBytes : Bytes) :
    ∃ r c', resolve H c now later outcome queryBytes = .ok (r, c') ∧
      DnsCache.SameSettings c c' := by
  cases hm : H.fromVec queryBytes with
  | none =>
      refine ⟨.error .badQuery, c, ?_, rfl, rfl, rfl⟩
      simp [resolve, lookupQuery, hm, bind, Except.bind, pure, Except.pure]
  | some m =>
      obtain ⟨answer, c₁, hget, hset⟩ := DnsCache.get_ok H c now m
      cases answer with
      | some b =>
          refine ⟨.ok ⟨rewriteId m.id b, true, none, none⟩, c₁, ?_, hset⟩
          simp [resolve, lookupQuery, hm, hget, bind, Except.bind, pure, Except.pure]
      | none =>
          cases hfetch : fetchBody outcome with
          | error e =>
              refine ⟨.error e, c₁, ?_, hset⟩
              simp [resolve, lookupQuery, hm, hget, hfetch, bind, Except.bind, pure, Except.pure]
          | ok fetched =>
              have hle₁ : c₁.minTtl ≤ c₁.maxTtl := by rw [hset.2.1, hset.2.2]; exact hle
              obtain ⟨c₂, hput, hset₂⟩ := DnsCache.put_ok H hle₁ later m fetched.2.2
              refine ⟨.ok ⟨rewriteId m.id fetched.2.2, false, some fetched.1, some fetched.2.1⟩,
                c₂, ?_, hset.trans hset₂⟩
              simp [resolve, lookupQuery, hm, hget, hfetch, storeBody, hput, bind, Except.bind,
                pure, Except.pure]

/-- So is a sequence of them. -/
theorem resolveAll_ok (H : Hickory) (hle : c.minTtl ≤ c.maxTtl) (asks : List Ask) :
    ∃ rs c', resolveAll H c asks = .ok (rs, c') := by
  induction asks generalizing c with
  | nil => exact ⟨[], c, rfl⟩
  | cons a asks ih =>
      obtain ⟨r, c₁, hone, hset⟩ := resolve_ok H hle a.now a.later a.outcome a.queryBytes
      obtain ⟨rs, c₂, hall⟩ := ih (c := c₁) (by rw [hset.2.1, hset.2.2]; exact hle)
      refine ⟨r :: rs, c₂, ?_⟩
      simp [resolveAll, hone, hall, bind, Except.bind, pure, Except.pure]

/-- **What the cache does to replies.**  Whatever upstream answers as a
function of the message, each reply is the one it has for that query or for an
earlier query with the same cache key, up to ID and answer TTLs; so if it
answers queries with the same key alike, up to the ID bytes, the cache is
transparent. -/
theorem resolveAll_replies (H : Hickory) (hrt : H.RoundTrips)
    (f : Message → Except ResolveError Bytes) (allocates : Nat → Bool) (maxEntries : Nat)
    (minTtl maxTtl : UInt32) (c₀ : DnsCache)
    (hnew : DnsCache.new allocates maxEntries minTtl maxTtl = .ok c₀)
    (asks : List Ask) (hf : AnsweredBy H f asks) :
    (minTtl ≤ maxTtl → ∃ rs c, resolveAll H c₀ asks = .ok (rs, c)) ∧
    ∀ rs c, resolveAll H c₀ asks = .ok (rs, c) →
      rs.length = asks.length ∧
      (∀ (i : Nat) (a : Ask) (r : Except ResolveError DnsResult), asks[i]? = some a →
        rs[i]? = some r → Answered H f (asks.take i) a r) ∧
      (H.IdApart → (∀ m m', SameKey H m m' → Alike (f m) (f m')) →
        ∀ (i : Nat) (a : Ask) (r : Except ResolveError DnsResult) (m : Message),
          asks[i]? = some a → rs[i]? = some r → H.fromVec a.queryBytes = some m →
            RepliesWith H m.id (f m) r) := by
  constructor
  · intro hle
    obtain ⟨_, _, hmin, hmax⟩ := DnsCache.agrees_new H 0 hnew
    exact resolveAll_ok H (by rw [hmin, hmax]; exact hle) asks
  · intro rs c hrun
    obtain ⟨hlen, hans⟩ :=
      answered_resolveAll hrt [] (sourced_new hnew) hf hrun
    refine ⟨hlen, hans, ?_⟩
    intro hapart hkey i a r m ha hr hm
    have hone := hans i a r ha hr
    unfold Answered at hone
    rw [hm] at hone
    obtain ⟨m₀, rfl | ⟨_, hsame⟩, hreply⟩ := hone
    · exact hreply
    · exact repliesWith_of_alike hapart (hkey m m₀ hsame) hreply

open DnsCache (askA answerA)

/-- `askA` on the wire, with checking disabled or not. -/
def askBytes (checkingDisabled : Bool) : Bytes :=
  [4, 210, 1, if checkingDisabled then 16 else 0, 0, 1, 0, 0, 0, 0, 0, 0, 1, 97, 0, 0, 1, 0, 1]

/-- A SERVFAIL for `askA`. -/
def servfailA : Bytes :=
  [4, 210, 129, 130, 0, 1, 0, 0, 0, 0, 0, 0, 1, 97, 0, 0, 1, 0, 1]

def servfailMessage : Message :=
  { askA with
    header :=
      { askA.header with
        messageType := .response, recursionAvailable := true, responseCode := 2 } }

/-- An upstream that validates: the answer for `askA` does not pass, and is only
given with checking disabled. -/
def validating (m : Message) : Except ResolveError Bytes :=
  .ok (if m.header.checkingDisabled then answerA else servfailA)

/-- Asked at second `t` of a validating upstream. -/
def askAt (t : Nat) (checkingDisabled : Bool) : Ask where
  queryBytes := askBytes checkingDisabled
  now := Duration.fromSecs t
  later := Duration.fromSecs t
  outcome := .response 200 5 (some (if checkingDisabled then answerA else servfailA))

/-- `askA` after `askA` with checking disabled. -/
def replies : Except Panic (List (Except ResolveError DnsResult)) := do
  let c ← DnsCache.new (fun _ => true) 2 60 86400
  let (rs, _) ← resolveAll Wire.wire c [askAt 0 true, askAt 1 false]
  pure rs

/-- The answer fetched with checking disabled, aged by a second. -/
def agedA : Bytes :=
  [4, 210, 129, 128, 0, 1, 0, 1, 0, 0, 0, 0, 1, 97, 0, 0, 1, 0, 1,
    1, 98, 0, 0, 1, 0, 1, 0, 0, 1, 43, 0, 4, 1, 2, 3, 4]

/-- The second query gets what was fetched for the first: the answer that does
not pass, where upstream has a SERVFAIL for it. -/
theorem checking_disabled_reply_shared :
    (∀ m id, validating { m with header := { m.header with id := id } } = validating m) ∧
      AnsweredBy Wire.wire validating [askAt 0 true, askAt 1 false] ∧
      replies =
        .ok [.ok ⟨answerA, false, some 200, some 5⟩, .ok ⟨agedA, true, none, none⟩] ∧
      Wire.wire.fromVec (askBytes false) = some askA ∧
      ¬ RepliesWith Wire.wire askA.id (validating askA) (.ok ⟨agedA, true, none, none⟩) := by
  refine ⟨fun _ _ => rfl, ?_, by decide +kernel, by decide +kernel, ?_⟩
  · intro a ha m hm
    have hflag : ∀ cd, (Wire.wire.fromVec (askBytes cd)).map
        (fun m => m.header.checkingDisabled) = some cd := by
      decide +kernel
    simp only [List.mem_cons, List.not_mem_nil, or_false] at ha
    obtain rfl | rfl := ha
    · have hcd := hflag true
      rw [show askBytes true = (askAt 0 true).queryBytes from rfl, hm] at hcd
      simp only [Option.map_some, Option.some.injEq] at hcd
      simp [validating, hcd, bodyOf, fetchBody, askAt, isSuccess, Except.map]
    · have hcd := hflag false
      rw [show askBytes false = (askAt 1 false).queryBytes from rfl, hm] at hcd
      simp only [Option.map_some, Option.some.injEq] at hcd
      simp [validating, hcd, bodyOf, fetchBody, askAt, isSuccess, Except.map]
  · rintro ⟨served, ⟨_, hsame⟩, hlen, hreply⟩
    have hdec : Wire.wire.fromVec servfailA = some servfailMessage := by decide +kernel
    obtain ⟨m', hm', hbody⟩ := hsame _ hdec
    match served, hlen, hreply, hm' with
    | x :: y :: rest, _, hreply, hm' =>
        have hrest : rest = agedA.drop 2 := by
          simp only [rewriteId, List.length_cons, Nat.le_add_left, if_true, List.set_cons_zero,
            List.set_cons_succ] at hreply
          exact (congrArg (List.drop 2) hreply).symm
        subst hrest
        have hanswers : (Wire.wire.fromVec (x :: y :: agedA.drop 2)).map
            (fun m => m.answers.length) = some 1 := rfl
        rw [hm'] at hanswers
        have hcount := congrArg (fun m => m.answers.length) hbody
        simp [Message.dropAnswerTtls, Message.setAnswerTtls, servfailMessage, askA,
          Message.new] at hcount
        simp [hcount] at hanswers

/-- An upstream with one answer for everything, under the ID it is asked with. -/
def echoing (m : Message) : Except ResolveError Bytes := .ok (rewriteId m.id answerA)

/-- Asked of it at second `t`, under a given ID. -/
def echoAt (t : Nat) (id : UInt16) (checkingDisabled : Bool) : Ask where
  queryBytes := rewriteId id (askBytes checkingDisabled)
  now := Duration.fromSecs t
  later := Duration.fromSecs t
  outcome := .response 200 5 (some (rewriteId id answerA))

theorem fromVec_echo (id : UInt16) (cd : Bool) :
    Wire.wire.fromVec (rewriteId id (askBytes cd)) =
      some { askA with header := { askA.header with id := id, checkingDisabled := cd } } := by
  have hask : Wire.wire.fromVec (askBytes cd) =
      some { askA with header := { askA.header with checkingDisabled := cd } } := by
    cases cd <;> decide +kernel
  rw [Wire.idApart_wire id _ (by cases cd <;> decide), hask]
  rfl

/-- Both queries are answered by an upstream that copies the ID. -/
theorem answeredBy_echoing :
    AnsweredBy Wire.wire echoing [echoAt 0 1234 true, echoAt 1 77 false] := by
  intro a ha m hm
  simp only [List.mem_cons, List.not_mem_nil, or_false] at ha
  obtain rfl | rfl := ha
  all_goals
    rw [echoAt, fromVec_echo] at hm
    cases hm
    rfl

theorem echoReplies_eq : (DnsCache.new (fun _ => true) 2 60 86400 >>= fun c =>
    (resolveAll Wire.wire c [echoAt 0 1234 true, echoAt 1 77 false]).map Prod.fst) =
      .ok [.ok ⟨answerA, false, some 200, some 5⟩,
        .ok ⟨rewriteId 77 agedA, true, none, none⟩] := by
  decide +kernel

/-- The second of two queries, with its own ID and without the flag of the
first, is served from the cache what upstream has for it. -/
theorem resolveAll_replies_echoing :
    ∃ c₀ rs c, DnsCache.new (fun _ => true) 2 60 86400 = .ok c₀ ∧
      resolveAll Wire.wire c₀ [echoAt 0 1234 true, echoAt 1 77 false] = .ok (rs, c) ∧
      rs[1]? = some (.ok ⟨rewriteId 77 agedA, true, none, none⟩) ∧
      RepliesWith Wire.wire 77 (.ok (rewriteId 77 answerA))
        (.ok ⟨rewriteId 77 agedA, true, none, none⟩) := by
  obtain ⟨c₀, hnew, hcached⟩ := bind_ok_iff.mp echoReplies_eq
  obtain ⟨-, hreplies⟩ := resolveAll_replies Wire.wire Wire.roundTrips_wire echoing
    (fun _ => true) 2 60 86400 c₀ hnew _ answeredBy_echoing
  cases hrun : resolveAll Wire.wire c₀ [echoAt 0 1234 true, echoAt 1 77 false] with
  | error e =>
      rw [hrun] at hcached
      cases hcached
  | ok p =>
      obtain ⟨rs, c⟩ := p
      rw [hrun] at hcached
      have hrs : rs = [.ok ⟨answerA, false, some 200, some 5⟩,
          .ok ⟨rewriteId 77 agedA, true, none, none⟩] := Except.ok.inj hcached
      refine ⟨c₀, rs, c, hnew, hrun, by rw [hrs]; rfl, ?_⟩
      exact (hreplies rs c hrun).2.2 Wire.idApart_wire (fun m m' _ => alike_rewriteId _ _ _) 1
        (echoAt 1 77 false) _ _ rfl (by rw [hrs]; rfl) (fromVec_echo 77 false)

end Zebrafish.Dns
