import Zebrafish.Lib.Framing
import Zebrafish.Dns.Doh

/-!
# Zebrafish.Dns.Server

What the listeners send back (`server.rs`): the resolved body, or a SERVFAIL
built from the query, and over TCP each of them behind its length.

`handleTcpConnection` is the loop over one connection, from the bytes the
client sends to the bytes it gets.  `tcp_framed_iff` says exactly when those
are the framed list of responses: the length is cast to 16 bits, so none may
be longer than 65535 bytes.
-/

namespace Zebrafish.Dns

open Format (be16 ofBe16)
open Framing

/-! ## responses -/

/-- `OpCode::Query`. -/
def OpCode.Query : Fin 16 := 0

/-- `ResponseCode::ServFail`. -/
def ResponseCode.ServFail : Fin 16 := 2

/-- The message a failed query is answered with. -/
def servfail (query : Message) : Message :=
  { Message.new with
    header :=
      { Header.new with
        id := query.id
        messageType := .response
        opCode := OpCode.Query
        responseCode := ResponseCode.ServFail
        recursionDesired := query.header.recursionDesired
        recursionAvailable := true }
    queries := query.queries }

/-- Build a SERVFAIL response for a failed query. -/
def buildServfail (H : Hickory) (queryBytes : Bytes) : Option Bytes := do
  let query ← H.fromVec queryBytes
  H.toVec (servfail query)

/-- What the client is sent, if anything. -/
def response (H : Hickory) (queryBytes : Bytes) : Except ResolveError DnsResult → Option Bytes
  | .ok r => some r.response
  | .error _ => buildServfail H queryBytes

/-! ## a TCP connection -/

/-- What came of reading a query. -/
inductive Read
  | query (bytes rest : Bytes)
  | done
  | unexpectedEof

/-- Read a query behind its length; a stream that ends before one, or has a
length of zero, is done. -/
def readQuery : Bytes → Read
  | hi :: lo :: rest =>
      let msgLen := (ofBe16 hi lo).toNat
      if msgLen = 0 ∨ 65535 < msgLen then .done
      else if msgLen ≤ rest.length then .query (rest.take msgLen) (rest.drop msgLen)
      else .unexpectedEof
  | _ => .done

/-- Reading a query takes bytes off the stream. -/
theorem length_lt_of_readQuery {input q rest : Bytes} (h : readQuery input = .query q rest) :
    rest.length < input.length := by
  match input with
  | [] => cases h
  | [_] => cases h
  | hi :: lo :: input =>
      unfold readQuery at h
      simp only at h
      split at h
      · cases h
      · split at h
        · cases h
          simp
          omega
        · cases h

/-- What `resolve` returns for the `i`-th query of a connection.  It depends on
the cache, the clock and upstream, so it is any function that fails on what is
not a message. -/
structure Outcomes (H : Hickory) where
  resolve : Nat → Bytes → Except ResolveError DnsResult
  badQuery : ∀ i q, H.fromVec q = none → resolve i q = .error .badQuery

/-- How a connection ended. -/
inductive Exit
  | ok
  | error
deriving DecidableEq

/-- Serve the queries of a connection, the `i`-th first: the bytes written, and
how it ended. -/
def handleTcpConnection (H : Hickory) (O : Outcomes H) (i : Nat) (input : Bytes) :
    Bytes × Exit :=
  match hread : readQuery input with
  | .done => ([], .ok)
  | .unexpectedEof => ([], .error)
  | .query q rest =>
      match response H q (O.resolve i q) with
      | none => ([], .ok)
      | some r =>
          have := length_lt_of_readQuery hread
          let (written, exit) := handleTcpConnection H O (i + 1) rest
          (be16 (UInt16.ofNat r.length) ++ (r ++ written), exit)
termination_by input.length

variable {H : Hickory} {O : Outcomes H}

/-- A framed query is read. -/
theorem readQuery_frame {q : Bytes} (hpos : 0 < q.length) (hlt : q.length < 65536)
    (rest : Bytes) : readQuery (frame q ++ rest) = .query q rest := by
  have hlen : (UInt16.ofNat q.length).toNat = q.length := by
    rw [UInt16.toNat_ofNat']
    exact Nat.mod_eq_of_lt hlt
  have hin : ¬ (q.length = 0 ∨ 65535 < q.length) := by omega
  simp only [frame, be16, List.cons_append, List.nil_append, readQuery, Format.ofBe16_be16, hlen,
    if_neg hin]
  simp

/-- A query that gets no response ends the connection. -/
theorem handleTcpConnection_none {q : Bytes} {i : Nat} (hpos : 0 < q.length)
    (hlt : q.length < 65536) (hr : response H q (O.resolve i q) = none) (rest : Bytes) :
    handleTcpConnection H O i (frame q ++ rest) = ([], .ok) := by
  unfold handleTcpConnection
  split
  · rfl
  · next hread =>
      rw [readQuery_frame hpos hlt] at hread
      cases hread
  · next hread =>
      rw [readQuery_frame hpos hlt] at hread
      cases hread
      simp [hr]

/-- A query that gets one is answered with its frame. -/
theorem handleTcpConnection_some {q r : Bytes} {i : Nat} (hpos : 0 < q.length)
    (hlt : q.length < 65536) (hr : response H q (O.resolve i q) = some r) (rest : Bytes) :
    (handleTcpConnection H O i (frame q ++ rest)).1 =
      frame r ++ (handleTcpConnection H O (i + 1) rest).1 := by
  rw [handleTcpConnection]
  split
  · next hread =>
      rw [readQuery_frame hpos hlt] at hread
      cases hread
  · next hread =>
      rw [readQuery_frame hpos hlt] at hread
      cases hread
  · next hread =>
      rw [readQuery_frame hpos hlt] at hread
      cases hread
      simp [hr, frame]

/-- What may follow the last query: the end of the stream (perhaps in the middle
of a frame), a length of zero, or a query that is not a message. -/
inductive Ends (H : Hickory) : Bytes → Prop
  | eof (tail : Bytes) (h : readFrame tail = none) : Ends H tail
  | zeroLength (rest : Bytes) : Ends H (0 :: 0 :: rest)
  | unparsable (q rest : Bytes) (hpos : 0 < q.length) (hlt : q.length < 65536)
      (hbad : H.fromVec q = none) : Ends H (frame q ++ rest)

/-- At the end of the stream nothing more is written. -/
theorem handleTcpConnection_ends {tail : Bytes} (h : Ends H tail) (i : Nat) :
    (handleTcpConnection H O i tail).1 = [] := by
  cases h with
  | eof tail h =>
      have hread : ∀ q rest, readQuery tail ≠ .query q rest := by
        intro q rest hq
        match tail with
        | [] => cases hq
        | [_] => cases hq
        | hi :: lo :: tail =>
            have hlong : ¬ (ofBe16 hi lo).toNat ≤ tail.length := by
              intro hle
              simp [readFrame, hle] at h
            simp only [readQuery, if_neg hlong] at hq
            split at hq <;> cases hq
      unfold handleTcpConnection
      split
      · rfl
      · rfl
      · next hq => exact absurd hq (hread _ _)
  | zeroLength rest =>
      have hzero : readQuery (0 :: 0 :: rest) = .done := rfl
      rw [handleTcpConnection]
      split
      · rfl
      · rfl
      · next hq =>
          rw [hzero] at hq
          cases hq
  | unparsable q rest hpos hlt hbad =>
      have hr : response H q (O.resolve i q) = none := by
        rw [O.badQuery i q hbad]
        simp [response, buildServfail, hbad]
      rw [handleTcpConnection_none hpos hlt hr]

/-! ## the stream law -/

/-- The stream of a client: framed queries, then an ending. -/
def clientStream (queries : List Bytes) (tail : Bytes) : Bytes :=
  (queries.map frame).flatten ++ tail

/-- The response to each query, in order. -/
def responses (H : Hickory) (O : Outcomes H) : Nat → List Bytes → List (Option Bytes)
  | _, [] => []
  | i, q :: queries => response H q (O.resolve i q) :: responses H O (i + 1) queries

/-- A query a client may frame: not empty, short enough, and a message. -/
structure Sendable (H : Hickory) (q : Bytes) : Prop where
  pos : 0 < q.length
  lt : q.length < 65536
  parses : (H.fromVec q).isSome

/-- The resolved body fits behind a 16-bit length, or the query failed and has
a SERVFAIL that does. -/
def Fits (H : Hickory) (q : Bytes) : Except ResolveError DnsResult → Prop
  | .ok r => r.response.length ≤ 65535
  | .error _ => ∃ b, buildServfail H q = some b ∧ b.length ≤ 65535

/-- A query fits if its response has a length of 16 bits. -/
theorem fits_iff (q : Bytes) (outcome : Except ResolveError DnsResult) :
    Fits H q outcome ↔ ∃ b, response H q outcome = some b ∧ b.length < 65536 := by
  cases outcome with
  | ok r => simp [Fits, response, Nat.lt_succ_iff]
  | error e => simp [Fits, response, Nat.lt_succ_iff]

/-- With a response for every query, their frames are written. -/
theorem handleTcpConnection_stream {queries : List Bytes} {tail : Bytes} {rs : List Bytes}
    {i : Nat} (hq : ∀ q ∈ queries, Sendable H q) (htail : Ends H tail)
    (hrs : rs.map some = responses H O i queries) :
    (handleTcpConnection H O i (clientStream queries tail)).1 = (rs.map frame).flatten := by
  induction queries generalizing i rs with
  | nil =>
      cases rs with
      | nil => exact handleTcpConnection_ends htail i
      | cons r rs => cases hrs
  | cons q queries ih =>
      cases rs with
      | nil => cases hrs
      | cons r rs =>
          simp only [List.map_cons, responses, List.cons.injEq] at hrs
          obtain ⟨hr, hrest⟩ := hrs
          have hsend := hq q List.mem_cons_self
          have hstream : clientStream (q :: queries) tail =
              frame q ++ clientStream queries tail := by
            simp [clientStream]
          rw [hstream, handleTcpConnection_some hsend.pos hsend.lt hr.symm,
            ih (fun x hx => hq x (List.mem_cons_of_mem q hx)) hrest]
          rfl

/-- Every query has a response exactly when all its outcomes fit. -/
theorem responses_iff (queries : List Bytes) (i : Nat) :
    (∃ rs : List Bytes, rs.map some = responses H O i queries ∧ ∀ r ∈ rs, r.length < 65536) ↔
      ∀ (j : Nat) (q : Bytes), queries[j]? = some q → Fits H q (O.resolve (i + j) q) := by
  induction queries generalizing i with
  | nil => exact ⟨fun _ j q h => by simp at h, fun _ => ⟨[], rfl, by simp⟩⟩
  | cons q queries ih =>
      constructor
      · rintro ⟨rs, hrs, hlen⟩ j x hx
        cases rs with
        | nil => cases hrs
        | cons r rs =>
            simp only [List.map_cons, responses, List.cons.injEq] at hrs
            cases j with
            | zero =>
                cases hx
                exact (fits_iff q _).mpr ⟨r, hrs.1.symm, hlen r List.mem_cons_self⟩
            | succ j =>
                have hrest := (ih (i + 1)).mp
                  ⟨rs, hrs.2, fun y hy => hlen y (List.mem_cons_of_mem r hy)⟩ j x hx
                rwa [show i + (j + 1) = i + 1 + j by omega]
      · intro h
        obtain ⟨r, hr, hlt⟩ := (fits_iff q _).mp (h 0 q rfl)
        rw [Nat.add_zero] at hr
        obtain ⟨rs, hrs, hlen⟩ := (ih (i + 1)).mpr fun j x hx => by
          have hj := h (j + 1) x hx
          rwa [show i + (j + 1) = i + 1 + j by omega] at hj
        refine ⟨r :: rs, by simp [responses, hrs, hr], ?_⟩
        simpa [hlt] using hlen

/-- **TCP framing.**  The bytes written for any stream of queries decode to one
response per query, in order, exactly when each resolved body, or the SERVFAIL
of a failed query, is there and at most 65535 bytes long. -/
theorem tcp_framed_iff (H : Hickory) (O : Outcomes H) (queries : List Bytes) (tail : Bytes)
    (hq : ∀ q ∈ queries, Sendable H q) (htail : Ends H tail) :
    (∃ rs, unframe (handleTcpConnection H O 0 (clientStream queries tail)).1 = some rs ∧
      rs.map some = responses H O 0 queries) ↔
      ∀ (i : Nat) (q : Bytes), queries[i]? = some q → Fits H q (O.resolve i q) := by
  have hfits := responses_iff (O := O) queries 0
  simp only [Nat.zero_add] at hfits
  rw [← hfits]
  constructor
  · rintro ⟨rs, hrs, hresp⟩
    exact ⟨rs, hresp, ((unframe_eq_some_iff _ _).mp hrs).2⟩
  · rintro ⟨rs, hresp, hlen⟩
    refine ⟨rs, ?_, hresp⟩
    rw [handleTcpConnection_stream hq htail hresp]
    exact (unframe_eq_some_iff _ _).mpr ⟨rfl, hlen⟩

/-- Every query is resolved upstream, to the same body. -/
def alwaysBody (H : Hickory) (body : Bytes) : Outcomes H where
  resolve _ q :=
    match H.fromVec q with
    | none => .error .badQuery
    | some m => .ok ⟨rewriteId m.id body, false, some 200, some 5⟩
  badQuery := by
    intro _ q h
    simp [h]

/-- The query of the tests may be sent. -/
theorem sendable_askBytes : Sendable Wire.wire (askBytes false) :=
  ⟨by decide, by decide, by decide +kernel⟩

/-- What the upstream of the tests has for it. -/
theorem response_alwaysBody (body : Bytes) :
    response Wire.wire (askBytes false)
      ((alwaysBody Wire.wire body).resolve 0 (askBytes false)) = some (rewriteId 1234 body) := by
  have hm : Wire.wire.fromVec (askBytes false) = some DnsCache.askA := by decide +kernel
  simp only [alwaysBody, hm, response]
  rfl

/-- What the server makes of one query whose body is one byte too long. -/
theorem tcp_overlong {body : Bytes} (hbody : body.length = 65536) :
    (∃ rest, readFrame (handleTcpConnection Wire.wire (alwaysBody Wire.wire body) 0
        (clientStream [askBytes false] [])).1 = some ([], rest)) ∧
      ∀ rs, unframe (handleTcpConnection Wire.wire (alwaysBody Wire.wire body) 0
          (clientStream [askBytes false] [])).1 = some rs →
        rs.map some ≠ responses Wire.wire (alwaysBody Wire.wire body) 0 [askBytes false] := by
  have hresp := response_alwaysBody body
  have hlen : (rewriteId 1234 body).length = 65536 := by rw [length_rewriteId, hbody]
  constructor
  · have hstream : clientStream [askBytes false] [] = frame (askBytes false) ++ [] := by
      simp [clientStream]
    have hzero : UInt16.ofNat 65536 = 0 := rfl
    rw [hstream, handleTcpConnection_some (by decide) (by decide) hresp,
      handleTcpConnection_ends (.eof [] rfl), frame, hlen, hzero]
    exact ⟨rewriteId 1234 body ++ [], rfl⟩
  · intro rs hrs hmap
    have hshort := ((unframe_eq_some_iff _ _).mp hrs).2
    have hmem : some (rewriteId 1234 body) ∈ rs.map some := by
      rw [hmap, responses, hresp]
      exact List.mem_cons_self
    obtain ⟨r, hr, heq⟩ := List.mem_map.mp hmem
    have hlt := hshort r hr
    rw [Option.some.inj heq, hlen] at hlt
    omega

/-- A body of 65536 zeros goes out behind a length of zero: the client reads an
empty response, and then the body as lengths. -/
theorem tcp_long_body_desynchronises :
    Sendable Wire.wire (askBytes false) ∧ Ends Wire.wire [] ∧
      (∃ rest, readFrame (handleTcpConnection Wire.wire
        (alwaysBody Wire.wire (List.replicate 65536 0)) 0
        (clientStream [askBytes false] [])).1 = some ([], rest)) ∧
      ¬ ∃ rs, unframe (handleTcpConnection Wire.wire
          (alwaysBody Wire.wire (List.replicate 65536 0)) 0
          (clientStream [askBytes false] [])).1 = some rs ∧
        rs.map some =
          responses Wire.wire (alwaysBody Wire.wire (List.replicate 65536 0)) 0
            [askBytes false] := by
  obtain ⟨hempty, hwrong⟩ := tcp_overlong (List.length_replicate (n := 65536) (a := (0 : UInt8)))
  refine ⟨sendable_askBytes, .eof [] rfl, hempty, ?_⟩
  rintro ⟨rs, hrs, hmap⟩
  exact hwrong rs hrs hmap

/-- Upstream is down for the second query of a connection, and has one body for
the others. -/
def downOnce (H : Hickory) (body : Bytes) : Outcomes H where
  resolve i q :=
    match H.fromVec q with
    | none => .error .badQuery
    | some m => if i = 1 then .error .request else .ok ⟨rewriteId m.id body, false, some 200, some 5⟩
  badQuery := by
    intro _ q h
    simp [h]

/-- Three queries, each with its own ID. -/
def threeQueries : List Bytes :=
  [askBytes false, rewriteId 5 (askBytes false), rewriteId 77 (askBytes true)]

/-- What they get, in order: a body, a SERVFAIL and the body again. -/
def threeAnswers : List Bytes :=
  [DnsCache.answerA, rewriteId 5 servfailA, rewriteId 77 DnsCache.answerA]

theorem responses_three :
    responses Wire.wire (downOnce Wire.wire DnsCache.answerA) 0 threeQueries =
      threeAnswers.map some := by
  decide +kernel

/-- Each of three queries is answered, the failed one in its place. -/
theorem tcp_framed_three :
    unframe (handleTcpConnection Wire.wire (downOnce Wire.wire DnsCache.answerA) 0
      (clientStream threeQueries [0, 0, 9])).1 = some threeAnswers := by
  have hsend : ∀ q ∈ threeQueries, Sendable Wire.wire q := by
    intro q hq
    simp only [threeQueries, List.mem_cons, List.not_mem_nil, or_false] at hq
    obtain rfl | rfl | rfl := hq <;> exact ⟨by decide, by decide, by decide +kernel⟩
  have hfits := (responses_iff (O := downOnce Wire.wire DnsCache.answerA) threeQueries 0).mp
    ⟨threeAnswers, responses_three.symm, by decide⟩
  simp only [Nat.zero_add] at hfits
  obtain ⟨rs, hrs, hresp⟩ := (tcp_framed_iff Wire.wire (downOnce Wire.wire DnsCache.answerA)
    threeQueries [0, 0, 9] hsend (.zeroLength [9])).mpr hfits
  rw [responses_three] at hresp
  rw [hrs, (List.map_inj_right fun _ _ => Option.some.inj).mp hresp]

end Zebrafish.Dns
