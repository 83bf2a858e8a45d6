import Zebrafish.Dns.History
import Zebrafish.Dns.Wire

/-!
# Zebrafish.Dns.Serve

What a hit serves.

The cache works on keys; callers think in questions.  With distinct texts for
distinct names the two are the same (`Question.key_injective`), and
`cache_serves_last_put` states the cache's contract in terms of questions.

A hit ages the body it serves by rewriting the answer TTLs, when the
re-encoded message has the length of the stored one.  The other sections are
served as they were stored; `served_ttls_bounded_iff` says exactly when that
keeps every TTL within what upstream allowed.
-/

namespace Zebrafish.Dns

open Lru Rust
open Format (be16)

/-! ## questions -/

theorem asciiLower_idem (b : UInt8) : asciiLower (asciiLower b) = asciiLower b := by
  have h : ∀ i : Fin 256, asciiLower (asciiLower (UInt8.ofFin i)) = asciiLower (UInt8.ofFin i) := by
    decide +kernel
  exact h b.toFin

/-- Lower case twice is lower case. -/
theorem Name.toLowercase_idem (n : Name) : n.toLowercase.toLowercase = n.toLowercase := by
  obtain ⟨ls⟩ := n
  have hl : ∀ l : Label, l.toLowercase.toLowercase = l.toLowercase := by
    intro l
    simp only [Label.toLowercase, List.map_map]
    congr 1
    exact List.map_congr_left fun b _ => asciiLower_idem b
  simp only [Name.toLowercase, List.map_map]
  congr 1
  exact List.map_congr_left fun l _ => hl l

/-- What a response is cached for: a lower-cased name, a type, a class. -/
structure Question where
  name : Name
  lower : name.toLowercase = name
  queryType : UInt16
  queryClass : UInt16
deriving DecidableEq

/-- The first question of a message. -/
def Message.question (m : Message) : Option Question :=
  m.queries.head?.map fun q =>
    ⟨q.name.toLowercase, q.name.toLowercase_idem, q.queryType, q.queryClass⟩

namespace Question

/-- The bytes a question is cached under. -/
def key (H : Hickory) (qn : Question) : Bytes :=
  H.nameText qn.name ++ [124] ++ be16 qn.queryType ++ [124] ++ be16 qn.queryClass

/-- The name is followed by six bytes of fixed width, so nothing in it can be
taken for them. -/
theorem key_injective {H : Hickory} (hn : H.NamesDistinct) :
    Function.Injective (Question.key H) := by
  rintro ⟨n, hlow, t, c⟩ ⟨n', hlow', t', c'⟩ h
  simp only [key, List.append_assoc] at h
  obtain ⟨htext, hrest⟩ := List.append_inj' h (by simp)
  have hname : n = n' := by
    have hlower := hn n n' (by rw [hlow, hlow', htext])
    rwa [hlow, hlow'] at hlower
  obtain ⟨ht, hc⟩ := List.append_inj (List.append_cancel_left hrest) rfl
  have htype : t = t' := Format.be16_injective ht
  have hclass : c = c' := Format.be16_injective (List.append_cancel_left hc)
  subst hname htype hclass
  rfl

end Question

namespace DnsCache

/-- The key of a query is that of its first question. -/
theorem cacheKey_eq (H : Hickory) (m : Message) :
    cacheKey H m = m.question.map (Question.key H) := by
  cases h : m.queries.head? <;> simp [cacheKey, Message.question, Question.key, h]

/-- The question a call touched. -/
def Obs.touchedQuestion : Obs → Option Question
  | .put _ q _ => q.question
  | .hit _ q => q.question
  | .miss _ _ => none

/-- The questions put or hit, latest first. -/
def touchedQuestions (hist : List Obs) : List Question := hist.filterMap Obs.touchedQuestion

/-- The most recent body put for a question, and when. -/
def lastPutFor (qn : Question) : List Obs → Option (Nat × Bytes)
  | [] => none
  | .put t q r :: hist => if q.question = some qn then some (t, r) else lastPutFor qn hist
  | .hit _ _ :: hist => lastPutFor qn hist
  | .miss _ _ :: hist => lastPutFor qn hist

/-- The keys touched are those of the questions. -/
theorem touched_eq (H : Hickory) (hist : List Obs) :
    touched H hist = (touchedQuestions hist).map (Question.key H) := by
  rw [touched, touchedQuestions, List.map_filterMap]
  congr 1
  funext o
  cases o <;> simp [Obs.touched, Obs.touchedQuestion, cacheKey_eq]

/-- What was put last under a key was put for its question. -/
theorem lastPut_key {H : Hickory} (hn : H.NamesDistinct) (qn : Question) (hist : List Obs) :
    lastPut H (qn.key H) hist = lastPutFor qn hist := by
  have hkey : ∀ m : Message, cacheKey H m = some (qn.key H) ↔ m.question = some qn := by
    intro m
    rw [cacheKey_eq]
    cases m.question with
    | none => simp
    | some qn' => simp [(Question.key_injective hn).eq_iff]
  induction hist with
  | nil => rfl
  | cons o hist ih =>
      cases o with
      | put t q r => simp only [lastPut, lastPutFor, hkey, ih]
      | hit t q => exact ih
      | miss t q => exact ih

/-! ## aging -/

/-- `served` is `stored` up to the TTLs of its answers; a body that is not a
message is served as it is. -/
def SameBody (H : Hickory) (stored served : Bytes) : Prop :=
  (H.fromVec stored = none → served = stored) ∧
    ∀ m, H.fromVec stored = some m →
      ∃ m', H.fromVec served = some m' ∧ m'.dropAnswerTtls = m.dropAnswerTtls

/-- A body is the same as itself. -/
theorem SameBody.refl (H : Hickory) (b : Bytes) : SameBody H b b :=
  ⟨fun _ => rfl, fun m hm => ⟨m, hm, rfl⟩⟩

/-- The aged form of a stored message goes out in its place. -/
def Reencodes (H : Hickory) (response : Bytes) (m : Message) (ttl : UInt32) : Prop :=
  ∃ bytes, H.toVec (m.setAnswerTtls ttl) = some bytes ∧ bytes.length = response.length

/-- What `adjustTtls` gives decodes to the aged message, if that re-encodes to
the same length, and else is the stored body. -/
theorem adjustTtls_cases {H : Hickory} (hrt : H.RoundTrips) {response : Bytes} {m : Message}
    (hm : H.fromVec response = some m) (ttl : UInt32) :
    (Reencodes H response m ttl ∧
        H.fromVec (adjustTtls H response ttl) = some (m.setAnswerTtls ttl)) ∨
      (¬ Reencodes H response m ttl ∧ adjustTtls H response ttl = response) := by
  unfold adjustTtls Reencodes
  rw [hm]
  cases henc : H.toVec (m.setAnswerTtls ttl) with
  | none => exact Or.inr ⟨by simp, by simp [henc]⟩
  | some bytes =>
      by_cases hlen : bytes.length = response.length
      · exact Or.inl ⟨by simp [hlen], by simp [henc, hlen, hrt _ _ henc]⟩
      · exact Or.inr ⟨by simp [hlen], by simp [henc, hlen]⟩

/-- Aging never changes the length of a body. -/
theorem length_adjustTtls (H : Hickory) (response : Bytes) (ttl : UInt32) :
    (adjustTtls H response ttl).length = response.length := by
  unfold adjustTtls
  split
  · rfl
  · split
    · rfl
    · split
      · assumption
      · rfl

/-- Adjusting TTLs keeps the body, but for these. -/
theorem sameBody_adjustTtls {H : Hickory} (hrt : H.RoundTrips) (response : Bytes)
    (ttl : UInt32) : SameBody H response (adjustTtls H response ttl) := by
  refine ⟨fun h => by simp [adjustTtls, h], fun m hm => ?_⟩
  rcases adjustTtls_cases hrt hm ttl with ⟨_, hdec⟩ | ⟨_, hsame⟩
  · exact ⟨_, hdec, m.dropAnswerTtls_setAnswerTtls ttl⟩
  · exact ⟨m, by rw [hsame, hm], rfl⟩

/-! ## the contract -/

/-- **The cache's contract.**  After any calls at non-decreasing times, a hit
serves the last body put for the same question, up to answer TTLs, and only
before that body's lifetime is over; the cache holds at most
`max maxEntries 1` entries; and a question whose body is alive always hits if
fewer than that many others were put or hit more recently. -/
theorem cache_serves_last_put (H : Hickory) (hrt : H.RoundTrips) (hn : H.NamesDistinct)
    (allocates : Nat → Bool) (maxEntries : Nat) (minTtl maxTtl : UInt32) (hle : minTtl ≤ maxTtl)
    (c₀ : DnsCache) (hnew : new allocates maxEntries minTtl maxTtl = .ok c₀)
    (calls : List Call) (hsorted : calls.Pairwise fun a b => a.time ≤ b.time)
    (now : Nat) (hnow : ∀ call ∈ calls, call.time ≤ now) (q : Message) :
    ∃ c hist answer c', run H c₀ [] calls = .ok (c, hist) ∧
      get H c now q = .ok (answer, c') ∧
      c.cache.entries.length ≤ max maxEntries 1 ∧
      (∀ b, answer = some b → ∃ qn t r, q.question = some qn ∧
        lastPutFor qn hist = some (t, r) ∧
        now < t + Duration.fromSecs (lifetimeSecs H minTtl maxTtl r).toNat ∧
        SameBody H r b) ∧
      (∀ qn t r, q.question = some qn → lastPutFor qn hist = some (t, r) →
        now < t + Duration.fromSecs (lifetimeSecs H minTtl maxTtl r).toNat →
        rank (touchedQuestions hist) qn ≤ max maxEntries 1 - 1 → answer.isSome) := by
  obtain ⟨h₀, hcap₀, hmin₀, hmax₀⟩ := agrees_new H 0 hnew
  obtain ⟨c, hist, hrun, h, hcap, hmin, hmax⟩ :=
    agrees_run calls now (by rw [hmin₀, hmax₀]; exact hle) h₀ hsorted
      (fun _ _ => Nat.zero_le _) hnow (Nat.zero_le _)
  obtain ⟨answer, c', hget, _⟩ := get_ok H c now q
  have hlife : ∀ r, lifetime H c r = Duration.fromSecs (lifetimeSecs H minTtl maxTtl r).toNat := by
    intro r
    rw [lifetime, hmin, hmax, hmin₀, hmax₀]
  refine ⟨c, hist, answer, c', hrun, hget, ?_, ?_, ?_⟩
  · rw [← hcap₀, ← hcap]
    exact c.cache.length_le
  · rintro b rfl
    obtain ⟨k, t, r, hk, hl, hlive, rfl⟩ := get_hit h hget
    rw [cacheKey_eq] at hk
    obtain ⟨qn, hq, rfl⟩ := Option.map_eq_some_iff.mp hk
    rw [lastPut_key hn] at hl
    rw [hlife] at hlive
    exact ⟨qn, t, r, hq, hl, hlive, sameBody_adjustTtls hrt r _⟩
  · intro qn t r hq hl hlive hrank
    have hkey : cacheKey H q = some (qn.key H) := by rw [cacheKey_eq, hq]; rfl
    have hrank' : rank (touched H hist) (qn.key H) < c.cache.cap := by
      rw [touched_eq, rank_map (Question.key_injective hn), hcap, hcap₀]
      omega
    obtain ⟨b, c'', hhit⟩ := get_must_hit h hkey (by rw [lastPut_key hn, hl])
      (by rw [hlife]; exact hlive) hrank'
    rw [hget] at hhit
    cases hhit
    rfl

/-- A query for `a.`, type A, class IN. -/
def askA : Message :=
  { Message.new with
    header := { Header.new with id := 1234, recursionDesired := true }
    queries := [⟨⟨[⟨[97], by decide, by decide⟩]⟩, 1, 1⟩] }

/-- Its answer: one A record of another name, with a TTL of 300. -/
def answerA : Bytes :=
  [4, 210, 129, 128, 0, 1, 0, 1, 0, 0, 0, 0, 1, 97, 0, 0, 1, 0, 1,
    1, 98, 0, 0, 1, 0, 1, 0, 0, 1, 44, 0, 4, 1, 2, 3, 4]

/-- Put at time 0, the answer is served a second later. -/
theorem cache_serves_last_put_a :
    ∃ c₀ c hist answer c', new (fun _ => true) 2 60 86400 = .ok c₀ ∧
      run Wire.wire c₀ [] [.put 0 askA answerA] = .ok (c, hist) ∧
      get Wire.wire c nanosPerSec askA = .ok (answer, c') ∧ answer.isSome := by
  obtain ⟨c, hist, answer, c', hrun, hget, _, _, hmust⟩ :=
    cache_serves_last_put Wire.wire Wire.roundTrips_wire Wire.namesDistinct_wire
      (fun _ => true) 2 60 86400 (by decide) _ rfl [.put 0 askA answerA] (by simp)
      nanosPerSec (by simp [Call.time]) askA
  refine ⟨_, c, hist, answer, c', rfl, hrun, hget, ?_⟩
  have hhist : hist = [.put 0 askA answerA] := by
    cases hrun
    rfl
  subst hhist
  exact hmust _ 0 answerA rfl rfl (by decide +kernel) (by decide +kernel)

/-! ## TTL bounds -/

/-- A record may be kept downstream no longer than its own TTL, or the
configured floor, allowed when it was stored `e` seconds ago. -/
def TtlBound (minTtl : UInt32) (e : Nat) (stored served : Record) : Prop :=
  served.ttl.toNat + e ≤ max stored.ttl.toNat minTtl.toNat

/-- The additional records that are not `OPT`. -/
def plainAdditionals (m : Message) : List Record :=
  m.additionals.filter fun r => r.recordType ≠ RecordType.OPT

/-- Every record of every section meets its bound. -/
structure TtlsBounded (minTtl : UInt32) (e : Nat) (stored served : Message) : Prop where
  answers : List.Forall₂ (TtlBound minTtl e) stored.answers served.answers
  nameServers : List.Forall₂ (TtlBound minTtl e) stored.nameServers served.nameServers
  additionals :
    List.Forall₂ (TtlBound minTtl e) (plainAdditionals stored) (plainAdditionals served)

/-- A record served with the TTL it was stored with is within its bound: it has
not aged, or the floor covers its age. -/
def StaysBounded (minTtl : UInt32) (e : Nat) (r : Record) : Prop :=
  e = 0 ∨ r.ttl.toNat + e ≤ minTtl.toNat

/-- A record that is not adjusted is bounded just if it stays so. -/
theorem ttlBound_self_iff (minTtl : UInt32) (e : Nat) (r : Record) :
    TtlBound minTtl e r r ↔ StaysBounded minTtl e r := by
  unfold TtlBound StaysBounded
  omega

/-- So it is with a section of records. -/
theorem forall₂_self_iff {minTtl : UInt32} {e : Nat} (l : List Record) :
    List.Forall₂ (TtlBound minTtl e) l l ↔ ∀ r ∈ l, StaysBounded minTtl e r := by
  rw [List.forall₂_same]
  exact forall₂_congr fun r _ => ttlBound_self_iff minTtl e r

/-! ### the lifetime and the answers -/

/-- The records whose TTLs count: the answers and the additional records that
are not `OPT`. -/
def counted (m : Message) : List Record := m.answers ++ plainAdditionals m

/-- The two loops are one fold over the counted records. -/
theorem minRecordTtl_eq (maxTtl : UInt32) (m : Message) :
    minRecordTtl maxTtl m = (counted m).foldl (fun x r => min32 x r.ttl) maxTtl := by
  rw [counted, List.foldl_append, plainAdditionals, List.foldl_filter]
  simp [minRecordTtl]

/-- The fold stays above a number exactly when its start and every TTL do. -/
theorem le_foldl_min32_iff (records : List Record) (x : UInt32) (n : Nat) :
    n ≤ (records.foldl (fun x r => min32 x r.ttl) x).toNat ↔
      n ≤ x.toNat ∧ ∀ r ∈ records, n ≤ r.ttl.toNat := by
  induction records generalizing x with
  | nil => simp
  | cons r records ih =>
      rw [List.foldl_cons, ih, toNat_min32, Nat.le_min, and_assoc, List.forall_mem_cons]

/-- The least TTL, as the loop over the records has it. -/
theorem le_minRecordTtl_iff (maxTtl : UInt32) (m : Message) (n : Nat) :
    n ≤ (minRecordTtl maxTtl m).toNat ↔
      n ≤ maxTtl.toNat ∧ ∀ r ∈ counted m, n ≤ r.ttl.toNat := by
  rw [minRecordTtl_eq, le_foldl_min32_iff]

/-- No answer record has a smaller TTL than the one the lifetime starts from. -/
theorem minRecordTtl_le (maxTtl : UInt32) {m : Message} {r : Record} (hr : r ∈ m.answers) :
    (minRecordTtl maxTtl m).toNat ≤ r.ttl.toNat := by
  obtain ⟨-, hall⟩ := (le_minRecordTtl_iff maxTtl m _).mp (Nat.le_refl _)
  exact hall r (List.mem_append_left _ hr)

/-- A body lives no longer than any of its answers, or than the floor. -/
theorem lifetimeSecs_le {H : Hickory} {minTtl maxTtl : UInt32} {response : Bytes} {m : Message}
    (hm : H.fromVec response = some m) {r : Record} (hr : r ∈ m.answers) :
    (lifetimeSecs H minTtl maxTtl response).toNat ≤ max r.ttl.toNat minTtl.toNat := by
  have hle := minRecordTtl_le maxTtl hr
  have hext : (extractMinTtl H minTtl maxTtl response).toNat ≤ max r.ttl.toNat minTtl.toNat := by
    unfold extractMinTtl
    rw [hm]
    simp only
    split <;> omega
  unfold lifetimeSecs
  simp only
  split
  · omega
  · split
    · next hlt =>
        have hlt' := UInt32.lt_iff_toNat_lt.mp hlt
        omega
    · exact hext

/-- What is left of a lifetime and what has passed do not exceed it. -/
theorem remaining_add_elapsed_le (H : Hickory) (c : DnsCache) (t : Nat) (r : Bytes) {now : Nat}
    (hlive : now < t + lifetime H c r) :
    (remainingSecs H c t r now).toNat + Duration.asSecs (now - t) ≤
      (lifetimeSecs H c.minTtl c.maxTtl r).toNat := by
  have hmod : (remainingSecs H c t r now).toNat ≤
      Duration.asSecs (lifetime H c r - (now - t)) := by
    rw [remainingSecs, UInt32.toNat_ofNat']
    exact Nat.mod_le _ _
  refine Nat.le_trans (Nat.add_le_add_right hmod _) ?_
  unfold lifetime Duration.fromSecs Duration.asSecs nanosPerSec at *
  omega

/-- With the TTL bounds crossed every `put` panics, so nothing is stored. -/
theorem lastPut_run_of_not_le {H : Hickory} (calls : List Call) {c c' : DnsCache}
    {hist hist' : List Obs} (hle : ¬ c.minTtl ≤ c.maxTtl)
    (hrun : run H c hist calls = .ok (c', hist')) (k : Bytes) :
    lastPut H k hist' = lastPut H k hist := by
  induction calls generalizing c hist with
  | nil => cases hrun; rfl
  | cons call calls ih =>
      cases call with
      | put t q r =>
          cases hq : cacheKey H q with
          | none =>
              simp only [run, step, put_of_no_key hq, bind, Except.bind, pure, Except.pure] at hrun
              rw [ih hle hrun]
              simp [lastPut, hq]
          | some k' =>
              simp [run, step, put, hq, clamp_of_not_le hle, bind, Except.bind] at hrun
      | get t q =>
          obtain ⟨answer, c₁, hget, hset⟩ := get_ok H c t q
          simp only [run, step, hget, bind, Except.bind, pure, Except.pure] at hrun
          rw [ih (by rw [hset.2.1, hset.2.2]; exact hle) hrun]
          split <;> rfl

/-- **TTLs downstream.**  A hit serves every record within its bound exactly
when the records that are not aged need no aging: the authority and additional
records always, the answers too when the aged message does not fit in the
place of the stored one. -/
theorem served_ttls_bounded_iff (H : Hickory) (hrt : H.RoundTrips) (allocates : Nat → Bool)
    (maxEntries : Nat) (minTtl maxTtl : UInt32) (c₀ : DnsCache)
    (hnew : new allocates maxEntries minTtl maxTtl = .ok c₀)
    (calls : List Call) (hsorted : calls.Pairwise fun a b => a.time ≤ b.time)
    (now : Nat) (hnow : ∀ call ∈ calls, call.time ≤ now) (c : DnsCache) (hist : List Obs)
    (hrun : run H c₀ [] calls = .ok (c, hist)) (q : Message) (b : Bytes) (c' : DnsCache)
    (hget : get H c now q = .ok (some b, c')) (k : Bytes) (hk : cacheKey H q = some k)
    (t : Nat) (r : Bytes) (hl : lastPut H k hist = some (t, r)) (m : Message)
    (hm : H.fromVec r = some m) :
    (∃ m', H.fromVec b = some m' ∧ TtlsBounded minTtl (Duration.asSecs (now - t)) m m') ↔
      (∀ s ∈ m.nameServers, StaysBounded minTtl (Duration.asSecs (now - t)) s) ∧
      (∀ s ∈ plainAdditionals m, StaysBounded minTtl (Duration.asSecs (now - t)) s) ∧
      (Reencodes H r m (remainingSecs H c t r now) ∨
        ∀ s ∈ m.answers, StaysBounded minTtl (Duration.asSecs (now - t)) s) := by
  obtain ⟨h₀, _, hmin₀, hmax₀⟩ := agrees_new H 0 hnew
  have hle : c₀.minTtl ≤ c₀.maxTtl := by
    by_contra hlt
    rw [lastPut_run_of_not_le calls hlt hrun] at hl
    cases hl
  obtain ⟨c₁, hist₁, hrun₁, h, _, hmin, hmax⟩ :=
    agrees_run calls now hle h₀ hsorted (fun _ _ => Nat.zero_le _) hnow
      (Nat.zero_le _)
  rw [hrun] at hrun₁
  cases hrun₁
  obtain ⟨k', t', r', hk', hl', hlive, rfl⟩ := get_hit h hget
  rw [hk] at hk'
  cases hk'
  rw [hl] at hl'
  cases hl'
  have hfloor : c.minTtl = minTtl := hmin.trans hmin₀
  have haged : List.Forall₂ (TtlBound minTtl (Duration.asSecs (now - t))) m.answers
      (m.setAnswerTtls (remainingSecs H c t r now)).answers := by
    have hsum := remaining_add_elapsed_le H c t r hlive
    rw [hfloor] at hsum
    refine List.forall₂_map_right_iff.mpr (List.forall₂_same.mpr fun s hs => ?_)
    exact Nat.le_trans hsum (lifetimeSecs_le hm hs)
  rcases adjustTtls_cases hrt hm (remainingSecs H c t r now) with ⟨hre, hdec⟩ | ⟨hre, hsame⟩
  · rw [hdec]
    constructor
    · rintro ⟨m', hm', _, hns, har⟩
      cases hm'
      exact ⟨(forall₂_self_iff _).mp hns, (forall₂_self_iff _).mp har, Or.inl hre⟩
    · rintro ⟨hns, har, _⟩
      exact ⟨_, rfl, haged, (forall₂_self_iff _).mpr hns, (forall₂_self_iff _).mpr har⟩
  · rw [hsame, hm]
    constructor
    · rintro ⟨m', hm', han, hns, har⟩
      cases hm'
      exact ⟨(forall₂_self_iff _).mp hns, (forall₂_self_iff _).mp har,
        Or.inr ((forall₂_self_iff _).mp han)⟩
    · rintro ⟨hns, har, han⟩
      exact ⟨m, rfl, (forall₂_self_iff _).mpr (han.resolve_left hre),
        (forall₂_self_iff _).mpr hns, (forall₂_self_iff _).mpr har⟩

/-- What a lookup answers after some calls on a fresh cache. -/
def lookupAfter (H : Hickory) (maxEntries : Nat) (minTtl maxTtl : UInt32) (calls : List Call)
    (now : Nat) (q : Message) : Except Panic (Option Bytes) := do
  let c ← new (fun _ => true) maxEntries minTtl maxTtl
  let (c, _) ← run H c [] calls
  let (answer, _) ← get H c now q
  pure answer

/-- The name `b.`, of the records in the replies. -/
def nameB : Name := ⟨[⟨[98], by decide, by decide⟩]⟩

/-- A reply to `askA` without answers: one authority record with a TTL
of 300. -/
def nodata : Message :=
  { askA with
    header :=
      { askA.header with messageType := .response, recursionAvailable := true }
    nameServers := [⟨nameB, 2, 1, 300, [0]⟩] }

def nodataA : Bytes :=
  [4, 210, 129, 128, 0, 1, 0, 0, 0, 1, 0, 0, 1, 97, 0, 0, 1, 0, 1,
    1, 98, 0, 0, 2, 0, 1, 0, 0, 1, 44, 0, 1, 0]

/-- Ten seconds after it was stored, the authority record still goes out with
a TTL of 300. -/
theorem authority_ttl_not_aged :
    lookupAfter Wire.wire 2 60 86400 [.put 0 askA nodataA] (Duration.fromSecs 10) askA =
        .ok (some nodataA) ∧
      Wire.wire.fromVec nodataA = some nodata ∧ ¬ TtlsBounded 60 10 nodata nodata := by
  refine ⟨by decide +kernel, by decide +kernel, ?_⟩
  intro h
  have hns := h.nameServers
  simp [nodata, TtlBound] at hns

/-- The message `answerA` spells. -/
def answer : Message :=
  { askA with
    header :=
      { askA.header with messageType := .response, recursionAvailable := true }
    answers := [⟨nameB, 1, 1, 300, [1, 2, 3, 4]⟩] }

/-- The key of `askA`. -/
def keyA : Bytes := [97, 46, 124, 0, 1, 124, 0, 1]

/-- The cache after `answerA` was put at time 0. -/
def cacheA : DnsCache :=
  ⟨(LruCache.new 2 (by decide)).put keyA ⟨answerA, 0, Duration.fromSecs 300⟩, 60, 86400⟩

/-- Ten seconds after it was stored, the answer goes out with a TTL of 290. -/
theorem served_ttls_bounded_a :
    ∃ m', Wire.wire.fromVec (adjustTtls Wire.wire answerA 290) = some m' ∧
      TtlsBounded 60 10 answer m' := by
  have hkey : cacheKey Wire.wire askA = some keyA := by decide +kernel
  have hpeek : cacheA.cache.peek keyA = some ⟨answerA, 0, Duration.fromSecs 300⟩ :=
    LruCache.peek_put_self _ _ _
  have hlive : ¬ Duration.fromSecs 300 ≤ Duration.fromSecs 10 - 0 := by decide
  have hget := get_of_live hkey hpeek hlive
  have hre : Reencodes Wire.wire answerA answer 290 :=
    ⟨(Wire.wire.toVec (answer.setAnswerTtls 290)).getD [], by decide +kernel, by decide +kernel⟩
  exact (served_ttls_bounded_iff Wire.wire Wire.roundTrips_wire (fun _ => true) 2 60 86400 _ rfl
    [.put 0 askA answerA] (by simp) (Duration.fromSecs 10) (by simp [Call.time])
    cacheA [.put 0 askA answerA] rfl askA _ _ hget keyA hkey 0 answerA rfl answer
    (by decide +kernel)).mpr
    ⟨by simp [answer, askA, Message.new], by simp [answer, askA, Message.new, plainAdditionals],
      Or.inl hre⟩

end DnsCache

end Zebrafish.Dns
