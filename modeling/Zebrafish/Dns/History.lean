import Zebrafish.Dns.Cache

/-!
# Zebrafish.Dns.History

What a cache owes its callers, in terms of the calls alone.

A history lists what happened, latest first.  `lastPut` is the most recent
body stored under a key and `touched` the keys put or hit; neither looks into
the cache.  `Agrees` is the invariant that ties a cache to its history: what
it holds under a key is the last body put there, and it holds every key that
is neither expired nor pushed out by `cap` more recent ones.  Calls keep it
(`agrees_step`, `agrees_run`), and a lookup is then read off the history
(`get_hit`, `get_must_hit`).
-/

namespace Zebrafish.Dns.DnsCache

open Lru Rust

/-! ## what the operations do -/

/-- How long a body may be served, in seconds: its smallest TTL, clamped. -/
def lifetimeSecs (H : Hickory) (minTtl maxTtl : UInt32) (response : Bytes) : UInt32 :=
  let ttl := extractMinTtl H minTtl maxTtl response
  if ttl < minTtl then minTtl else if maxTtl < ttl then maxTtl else ttl

def lifetime (H : Hickory) (c : DnsCache) (response : Bytes) : Nat :=
  Duration.fromSecs (lifetimeSecs H c.minTtl c.maxTtl response).toNat

/-- The whole seconds a body stored at `t` has left at `now`. -/
def remainingSecs (H : Hickory) (c : DnsCache) (t : Nat) (response : Bytes) (now : Nat) :
    UInt32 :=
  UInt32.ofNat (Duration.asSecs (lifetime H c response - (now - t)))

variable {H : Hickory} {c : DnsCache} {now : Nat} {q : Message} {k : Bytes} {e : CacheEntry}

/-- A query without a question is not looked up. -/
theorem get_of_no_key (h : cacheKey H q = none) : get H c now q = .ok (none, c) := by
  simp [get, h]

/-- What is not in the cache is not found. -/
theorem get_of_absent (hq : cacheKey H q = some k) (h : c.cache.peek k = none) :
    get H c now q = .ok (none, c) := by
  simp [get, hq, LruCache.get, h]

/-- What is expired is not found, and is gone then. -/
theorem get_of_expired (hq : cacheKey H q = some k) (h : c.cache.peek k = some e)
    (hexp : e.ttl ≤ now - e.insertedAt) :
    get H c now q = .ok (none, { c with cache := c.cache.pop k }) := by
  have hpop := c.cache.pop_put_of_mem e (LruCache.mem_keys_of_peek h)
  simp [get, hq, LruCache.get, h, Instant.elapsed, hexp, hpop]

/-- What is not expired is found, with the time that remains. -/
theorem get_of_live (hq : cacheKey H q = some k) (h : c.cache.peek k = some e)
    (hlive : ¬ e.ttl ≤ now - e.insertedAt) :
    get H c now q =
      .ok (some (adjustTtls H e.response
          (UInt32.ofNat (Duration.asSecs (e.ttl - (now - e.insertedAt))))),
        { c with cache := c.cache.put k e }) := by
  have hsub : Duration.sub e.ttl (now - e.insertedAt) = .ok (e.ttl - (now - e.insertedAt)) :=
    Duration.sub_of_le (by omega)
  simp [get, hq, LruCache.get, h, Instant.elapsed, hlive, hsub, Except.bind, bind]

/-- A query without a question is not cached. -/
theorem put_of_no_key (h : cacheKey H q = none) (response : Bytes) :
    put H c now q response = .ok c := by
  simp [put, h]

/-- What is put is cached for its lifetime. -/
theorem put_of_key (hq : cacheKey H q = some k) (hle : c.minTtl ≤ c.maxTtl)
    (response : Bytes) :
    put H c now q response =
      .ok { c with cache := c.cache.put k ⟨response, now, lifetime H c response⟩ } := by
  simp [put, hq, clamp_of_le hle, Except.bind, bind, lifetime, lifetimeSecs]

/-! ## histories -/

/-- A call of the cache and the moment it is made. -/
inductive Call
  | put (time : Nat) (query : Message) (response : Bytes)
  | get (time : Nat) (query : Message)

def Call.time : Call → Nat
  | .put t _ _ => t
  | .get t _ => t

/-- What a call did. -/
inductive Obs
  | put (time : Nat) (query : Message) (response : Bytes)
  | hit (time : Nat) (query : Message)
  | miss (time : Nat) (query : Message)

/-- Run one call. -/
def step (H : Hickory) (c : DnsCache) : Call → Except Panic (DnsCache × Obs)
  | .put t q r => do
      let c ← put H c t q r
      pure (c, .put t q r)
  | .get t q => do
      let (answer, c) ← get H c t q
      pure (c, if answer.isSome then .hit t q else .miss t q)

/-- Run calls in order, extending the history. -/
def run (H : Hickory) : DnsCache → List Obs → List Call → Except Panic (DnsCache × List Obs)
  | c, hist, [] => .ok (c, hist)
  | c, hist, call :: calls => do
      let (c, o) ← step H c call
      run H c (o :: hist) calls

/-- The key a call touched: that of a `put` or of a hit. -/
def Obs.touched (H : Hickory) : Obs → Option Bytes
  | .put _ q _ => cacheKey H q
  | .hit _ q => cacheKey H q
  | .miss _ _ => none

/-- The keys touched, latest first. -/
def touched (H : Hickory) (hist : List Obs) : List Bytes := hist.filterMap (Obs.touched H)

/-- The most recent body put under a key, and when. -/
def lastPut (H : Hickory) (k : Bytes) : List Obs → Option (Nat × Bytes)
  | [] => none
  | .put t q r :: hist => if cacheKey H q = some k then some (t, r) else lastPut H k hist
  | .hit _ _ :: hist => lastPut H k hist
  | .miss _ _ :: hist => lastPut H k hist

/-- A key with a body was touched. -/
theorem mem_touched_of_lastPut {hist : List Obs} {p : Nat × Bytes}
    (h : lastPut H k hist = some p) : k ∈ touched H hist := by
  induction hist with
  | nil => cases h
  | cons o hist ih =>
      cases o with
      | put t q r =>
          by_cases hq : cacheKey H q = some k
          · simp [touched, Obs.touched, hq]
          · have hmem := ih (by simpa [lastPut, hq] using h)
            cases hk : cacheKey H q <;> simp_all [touched, Obs.touched]
      | hit t q =>
          have hmem := ih h
          cases hk : cacheKey H q <;> simp_all [touched, Obs.touched]
      | miss t q => exact ih h

/-! ## the invariant -/

/-- A key whose last body has expired. -/
def Gone (H : Hickory) (c : DnsCache) (hist : List Obs) (now : Nat) (k : Bytes) : Prop :=
  ∃ t r, lastPut H k hist = some (t, r) ∧ t + lifetime H c r ≤ now

/-- A cache agrees with its history up to the moment `now`. -/
structure Agrees (H : Hickory) (c : DnsCache) (hist : List Obs) (now : Nat) : Prop where
  tracks : Tracks c.cache (touched H hist) (Gone H c hist now)
  stored : ∀ k e, c.cache.peek k = some e →
    lastPut H k hist = some (e.insertedAt, e.response) ∧ e.ttl = lifetime H c e.response
  past : ∀ k t r, lastPut H k hist = some (t, r) → t ≤ now

variable {hist : List Obs}

/-- Time passing only expires more. -/
theorem Agrees.later {now' : Nat} (h : Agrees H c hist now) (hle : now ≤ now') :
    Agrees H c hist now' where
  tracks := h.tracks.mono fun _ ⟨t, r, hl, hexp⟩ => ⟨t, r, hl, Nat.le_trans hexp hle⟩
  stored := h.stored
  past := fun k t r hl => Nat.le_trans (h.past k t r hl) hle

/-- A fresh cache agrees with the empty history. -/
theorem agrees_new (H : Hickory) (now : Nat) {allocates : Nat → Bool} {maxEntries : Nat}
    {minTtl maxTtl : UInt32} (h : new allocates maxEntries minTtl maxTtl = .ok c) :
    Agrees H c [] now ∧ c.cache.cap = max maxEntries 1 ∧ c.minTtl = minTtl ∧
      c.maxTtl = maxTtl := by
  have hpos : 0 < max maxEntries 1 := by omega
  by_cases ha : allocates (max maxEntries 1) = true
  · simp [new, nonZero, hpos, unwrap, ha, bind, Except.bind, pure, Except.pure] at h
    subst h
    refine ⟨⟨Tracks.new _ _, ?_, ?_⟩, rfl, rfl, rfl⟩
    · simp [LruCache.peek, LruCache.new]
    · simp [lastPut]
  · simp [new, nonZero, hpos, unwrap, ha, bind, Except.bind, throw, throwThe,
      MonadExceptOf.throw] at h

/-- A `put` is the last body under its key and under no other. -/
theorem agrees_put (h : Agrees H c hist now) (hq : cacheKey H q = some k) (r : Bytes) :
    Agrees H { c with cache := c.cache.put k ⟨r, now, lifetime H c r⟩ }
      (.put now q r :: hist) now where
  tracks := by
    have htouch : touched H (.put now q r :: hist) = k :: touched H hist := by
      simp [touched, Obs.touched, hq]
    rw [htouch]
    refine (h.tracks.put k (⟨r, now, lifetime H c r⟩ : CacheEntry)).mono ?_
    rintro x ⟨hne, t, r', hl, hexp⟩
    exact ⟨t, r', by simpa [lastPut, hq, Ne.symm hne] using hl, hexp⟩
  stored := by
    intro x e he
    by_cases hx : x = k
    · subst hx
      rw [LruCache.peek_put_self] at he
      cases he
      exact ⟨by simp [lastPut, hq], rfl⟩
    · have hold := h.stored x e (LruCache.peek_of_peek_put hx he)
      exact ⟨by simpa [lastPut, hq, Ne.symm hx] using hold.1, hold.2⟩
  past := by
    intro x t r' hl
    by_cases hx : cacheKey H q = some x
    · rw [lastPut, if_pos hx] at hl
      cases hl
      exact Nat.le_refl _
    · rw [lastPut, if_neg hx] at hl
      exact h.past x t r' hl

/-- A `put` of a query without a question is ignored. -/
theorem agrees_put_ignored (h : Agrees H c hist now) (hq : cacheKey H q = none) (r : Bytes) :
    Agrees H c (.put now q r :: hist) now where
  tracks := by
    have htouch : touched H (.put now q r :: hist) = touched H hist := by
      simp [touched, Obs.touched, hq]
    rw [htouch]
    refine h.tracks.mono ?_
    rintro x ⟨t, r', hl, hexp⟩
    exact ⟨t, r', by simpa [lastPut, hq] using hl, hexp⟩
  stored := by simpa [lastPut, hq] using h.stored
  past := by simpa [lastPut, hq] using h.past

/-- A hit touches its key. -/
theorem agrees_hit (h : Agrees H c hist now) (hq : cacheKey H q = some k)
    (hpeek : c.cache.peek k = some e) :
    Agrees H { c with cache := c.cache.put k e } (.hit now q :: hist) now where
  tracks := by
    have htouch : touched H (.hit now q :: hist) = k :: touched H hist := by
      simp [touched, Obs.touched, hq]
    rw [htouch]
    exact (h.tracks.put k e).mono fun _ hg => hg.2
  stored := by
    intro x e' he
    by_cases hx : x = k
    · subst hx
      rw [LruCache.peek_put_self] at he
      cases he
      exact h.stored x e hpeek
    · exact h.stored x e' (LruCache.peek_of_peek_put hx he)
  past := h.past

/-- A plain miss changes nothing. -/
theorem agrees_miss (h : Agrees H c hist now) : Agrees H c (.miss now q :: hist) now :=
  ⟨h.tracks, h.stored, h.past⟩

/-- A miss on an expired body forgets it. -/
theorem agrees_expired (h : Agrees H c hist now) (hpeek : c.cache.peek k = some e)
    (hexp : e.ttl ≤ now - e.insertedAt) :
    Agrees H { c with cache := c.cache.pop k } (.miss now q :: hist) now where
  tracks := by
    obtain ⟨hl, httl⟩ := h.stored k e hpeek
    have hpast := h.past k _ _ hl
    refine (h.tracks.pop k).mono ?_
    rintro x (rfl | hg)
    · have hend : e.insertedAt + lifetime H c e.response ≤ now := by
        rw [← httl]
        omega
      exact ⟨_, _, hl, hend⟩
    · exact hg
  stored := by
    intro x e' he
    by_cases hx : x = k
    · subst hx
      rw [LruCache.peek_pop_self] at he
      cases he
    · rw [LruCache.peek_pop_of_ne _ hx] at he
      exact h.stored x e' he
  past := h.past

/-- Capacity and TTL bounds are settled at construction. -/
def SameSettings (c c' : DnsCache) : Prop :=
  c'.cache.cap = c.cache.cap ∧ c'.minTtl = c.minTtl ∧ c'.maxTtl = c.maxTtl

/-- Settings that stay the same twice stay the same. -/
theorem SameSettings.trans {c c' c'' : DnsCache} (h : SameSettings c c')
    (h' : SameSettings c' c'') : SameSettings c c'' :=
  ⟨h'.1.trans h.1, h'.2.1.trans h.2.1, h'.2.2.trans h.2.2⟩

/-- One call keeps the agreement, and does not panic. -/
theorem agrees_step (hle : c.minTtl ≤ c.maxTtl) (h : Agrees H c hist now) (call : Call)
    (htime : now ≤ call.time) :
    ∃ c' o, step H c call = .ok (c', o) ∧ Agrees H c' (o :: hist) call.time ∧
      SameSettings c c' := by
  have hnow := h.later htime
  cases call with
  | put t q r =>
      cases hq : cacheKey H q with
      | none =>
          refine ⟨c, .put t q r, ?_, agrees_put_ignored hnow hq r, rfl, rfl, rfl⟩
          simp [step, put_of_no_key hq, bind, Except.bind, pure, Except.pure]
      | some k =>
          refine ⟨_, .put t q r, ?_, agrees_put hnow hq r, rfl, rfl, rfl⟩
          simp [step, put_of_key hq hle, bind, Except.bind, pure, Except.pure, Call.time]
  | get t q =>
      cases hq : cacheKey H q with
      | none =>
          refine ⟨c, .miss t q, ?_, agrees_miss hnow, rfl, rfl, rfl⟩
          simp [step, get_of_no_key hq, bind, Except.bind, pure, Except.pure]
      | some k =>
          cases hpeek : c.cache.peek k with
          | none =>
              refine ⟨c, .miss t q, ?_, agrees_miss hnow, rfl, rfl, rfl⟩
              simp [step, get_of_absent hq hpeek, bind, Except.bind, pure, Except.pure]
          | some e =>
              by_cases hexp : e.ttl ≤ t - e.insertedAt
              · refine ⟨_, .miss t q, ?_, agrees_expired hnow hpeek hexp, rfl, rfl, rfl⟩
                simp [step, get_of_expired hq hpeek hexp, bind, Except.bind, pure, Except.pure]
              · refine ⟨_, .hit t q, ?_, agrees_hit hnow hq hpeek, rfl, rfl, rfl⟩
                simp [step, get_of_live hq hpeek hexp, bind, Except.bind, pure, Except.pure]

/-- Calls at non-decreasing times keep the agreement, and never panic. -/
theorem agrees_run (calls : List Call) (later : Nat) (hle : c.minTtl ≤ c.maxTtl)
    (h : Agrees H c hist now) (hsorted : calls.Pairwise fun a b => a.time ≤ b.time)
    (hfrom : ∀ call ∈ calls, now ≤ call.time) (hto : ∀ call ∈ calls, call.time ≤ later)
    (hlater : now ≤ later) :
    ∃ c' hist', run H c hist calls = .ok (c', hist') ∧ Agrees H c' hist' later ∧
      SameSettings c c' := by
  induction calls generalizing c hist now with
  | nil => exact ⟨c, hist, rfl, h.later hlater, rfl, rfl, rfl⟩
  | cons call calls ih =>
      obtain ⟨hhead, hsorted'⟩ := List.pairwise_cons.mp hsorted
      obtain ⟨c₁, o, hstep, h₁, hcap₁, hmin₁, hmax₁⟩ :=
        agrees_step hle h call (hfrom call List.mem_cons_self)
      obtain ⟨c₂, hist₂, hrun, h₂, hcap₂, hmin₂, hmax₂⟩ :=
        ih (by rw [hmin₁, hmax₁]; exact hle) h₁ hsorted' hhead
          (fun call' hc => hto call' (List.mem_cons_of_mem call hc))
          (hto call List.mem_cons_self)
      refine ⟨c₂, hist₂, ?_, h₂, hcap₂.trans hcap₁, hmin₂.trans hmin₁, hmax₂.trans hmax₁⟩
      simp [run, hstep, bind, Except.bind, hrun]

/-! ## reading a lookup off the history -/

/-- A lookup of a cache that agrees with its history never panics; a hit
serves the last body put under the key, aged, and that body is still alive. -/
theorem get_hit (h : Agrees H c hist now) {b : Bytes} {c' : DnsCache}
    (hget : get H c now q = .ok (some b, c')) :
    ∃ k t r, cacheKey H q = some k ∧ lastPut H k hist = some (t, r) ∧
      now < t + lifetime H c r ∧ b = adjustTtls H r (remainingSecs H c t r now) := by
  cases hq : cacheKey H q with
  | none =>
      rw [get_of_no_key hq] at hget
      cases hget
  | some k =>
      cases hpeek : c.cache.peek k with
      | none =>
          rw [get_of_absent hq hpeek] at hget
          cases hget
      | some e =>
          obtain ⟨hl, httl⟩ := h.stored k e hpeek
          have hpast := h.past k _ _ hl
          by_cases hexp : e.ttl ≤ now - e.insertedAt
          · rw [get_of_expired hq hpeek hexp] at hget
            cases hget
          · rw [get_of_live hq hpeek hexp] at hget
            simp only [Except.ok.injEq, Prod.mk.injEq, Option.some.injEq] at hget
            refine ⟨k, e.insertedAt, e.response, rfl, hl, ?_, ?_⟩
            · rw [← httl]
              omega
            · rw [← hget.1, remainingSecs, ← httl]

/-- A live body with fewer than `cap` more recent keys is always served. -/
theorem get_must_hit (h : Agrees H c hist now) (hq : cacheKey H q = some k) {t : Nat} {r : Bytes}
    (hl : lastPut H k hist = some (t, r)) (hlive : now < t + lifetime H c r)
    (hrank : rank (touched H hist) k < c.cache.cap) :
    ∃ b c', get H c now q = .ok (some b, c') := by
  have hgone : ¬ Gone H c hist now k := by
    rintro ⟨t', r', hl', hexp⟩
    rw [hl] at hl'
    cases hl'
    omega
  have hmem := h.tracks.mem_keys (mem_touched_of_lastPut hl) hgone hrank
  cases hpeek : c.cache.peek k with
  | none => exact absurd hmem ((c.cache.peek_eq_none_iff k).mp hpeek)
  | some e =>
      obtain ⟨hl', httl⟩ := h.stored k e hpeek
      have hpast := h.past k _ _ hl'
      rw [hl] at hl'
      cases hl'
      have hfresh : ¬ e.ttl ≤ now - e.insertedAt := by
        rw [httl]
        omega
      exact ⟨_, _, get_of_live hq hpeek hfresh⟩

/-- Lookups never panic, and keep the settings. -/
theorem get_ok (H : Hickory) (c : DnsCache) (now : Nat) (q : Message) :
    ∃ answer c', get H c now q = .ok (answer, c') ∧ SameSettings c c' := by
  cases hq : cacheKey H q with
  | none => exact ⟨_, _, get_of_no_key hq, rfl, rfl, rfl⟩
  | some k =>
      cases hpeek : c.cache.peek k with
      | none => exact ⟨_, _, get_of_absent hq hpeek, rfl, rfl, rfl⟩
      | some e =>
          by_cases hexp : e.ttl ≤ now - e.insertedAt
          · exact ⟨_, _, get_of_expired hq hpeek hexp, rfl, rfl, rfl⟩
          · exact ⟨_, _, get_of_live hq hpeek hexp, rfl, rfl, rfl⟩

/-- Stores do not panic when the TTL bounds are in order. -/
theorem put_ok (H : Hickory) {c : DnsCache} (hle : c.minTtl ≤ c.maxTtl) (now : Nat) (q : Message)
    (response : Bytes) : ∃ c', put H c now q response = .ok c' ∧ SameSettings c c' := by
  cases hq : cacheKey H q with
  | none => exact ⟨_, put_of_no_key hq response, rfl, rfl, rfl⟩
  | some k => exact ⟨_, put_of_key hq hle response, rfl, rfl, rfl⟩

end Zebrafish.Dns.DnsCache
