import Zebrafish.Dns.Serve

/-!
# Zebrafish.Dns.Lifetime

How long `DnsCache::put` lets a body live, as a function of the TTLs it
carries.

`minRecordTtl` is the largest number below `maxTtl` and every counted TTL
(`le_minRecordTtl_iff`), so the only way to reach `maxTtl` is to have no
smaller counted TTL.  That value doubles as the mark of "nothing found", and
the test beside it is the wrong way round: it sends a body *with* answers to
`minTtl` and leaves one without answers at `maxTtl`.  The two main results say
exactly which bodies are spared.
-/

namespace Zebrafish.Dns.DnsCache

open Lru Rust

/-- The lifetime `put` gives to the entry it stores. -/
def givenTtl (H : Hickory) (c : DnsCache) (now : Nat) (query : Message) (response : Bytes) :
    Option Nat :=
  match cacheKey H query, put H c now query response with
  | some key, .ok c' => (c'.cache.peek key).map CacheEntry.ttl
  | _, _ => none

/-- `n` is the smallest TTL of some records. -/
structure LeastTtl (records : List Record) (n : Nat) : Prop where
  attained : ∃ r ∈ records, r.ttl.toNat = n
  least : ∀ r ∈ records, n ≤ r.ttl.toNat

/-- A record with its TTL raised, or left as it is. -/
def Raised (r r' : Record) : Prop := ∃ ttl, r.ttl ≤ ttl ∧ r' = r.setTtl ttl

/-- A message with the TTLs of some of its records raised. -/
structure RaisedTtls (m m' : Message) : Prop where
  answers : List.Forall₂ Raised m.answers m'.answers
  nameServers : List.Forall₂ Raised m.nameServers m'.nameServers
  additionals : List.Forall₂ Raised m.additionals m'.additionals
  others : m.dropTtls = m'.dropTtls

/-- A number of seconds held between two bounds. -/
def clampSecs (minTtl maxTtl : UInt32) (n : Nat) : Nat :=
  max minTtl.toNat (min maxTtl.toNat n)

/-- Longer times are clamped to longer times. -/
theorem clampSecs_mono {minTtl maxTtl : UInt32} {n n' : Nat} (h : n ≤ n') :
    clampSecs minTtl maxTtl n ≤ clampSecs minTtl maxTtl n' := by
  unfold clampSecs
  omega

/-! ## the least TTL -/

/-- With something to count, it is the smaller of `maxTtl` and the least TTL. -/
theorem toNat_minRecordTtl_of_least {m : Message} {n : Nat} (h : LeastTtl (counted m) n)
    (maxTtl : UInt32) : (minRecordTtl maxTtl m).toNat = min maxTtl.toNat n := by
  obtain ⟨r, hr, rfl⟩ := h.attained
  obtain ⟨hmax, hall⟩ := (le_minRecordTtl_iff maxTtl m _).mp (Nat.le_refl _)
  have hlow := (le_minRecordTtl_iff maxTtl m (min maxTtl.toNat r.ttl.toNat)).mpr
    ⟨Nat.min_le_left _ _, fun s hs => Nat.le_trans (Nat.min_le_right _ _) (h.least s hs)⟩
  have hup := hall r hr
  omega

/-- Records have a least TTL unless there are none. -/
theorem exists_leastTtl {records : List Record} (h : records ≠ []) :
    ∃ n, LeastTtl records n := by
  induction records with
  | nil => exact absurd rfl h
  | cons r records ih =>
      by_cases hnil : records = []
      · exact ⟨r.ttl.toNat, ⟨r, List.mem_cons_self, rfl⟩, by simp [hnil]⟩
      · obtain ⟨n, ⟨s, hs, hsn⟩, hleast⟩ := ih hnil
        by_cases hle : r.ttl.toNat ≤ n
        · refine ⟨r.ttl.toNat, ⟨r, List.mem_cons_self, rfl⟩, List.forall_mem_cons.mpr ⟨?_, ?_⟩⟩
          · exact Nat.le_refl _
          · exact fun t ht => Nat.le_trans hle (hleast t ht)
        · exact ⟨n, ⟨s, List.mem_cons_of_mem r hs, hsn⟩,
            List.forall_mem_cons.mpr ⟨by omega, hleast⟩⟩

/-! ## the lifetime -/

variable {H : Hickory} {c : DnsCache} {query : Message} {response : Bytes} {m : Message}

/-- The seconds behind a lifetime: the code's choice, clamped. -/
theorem toNat_lifetimeSecs {minTtl maxTtl : UInt32} (hle : minTtl ≤ maxTtl)
    (hm : H.fromVec response = some m) :
    (lifetimeSecs H minTtl maxTtl response).toNat =
      if minRecordTtl maxTtl m = maxTtl ∧ ¬ m.answers.isEmpty then minTtl.toNat
      else max minTtl.toNat (minRecordTtl maxTtl m).toNat := by
  have hle' := UInt32.le_iff_toNat_le.mp hle
  have hmax := ((le_minRecordTtl_iff maxTtl m _).mp (Nat.le_refl _)).1
  have hext : extractMinTtl H minTtl maxTtl response =
      if minRecordTtl maxTtl m = maxTtl ∧ ¬ m.answers.isEmpty then minTtl
      else minRecordTtl maxTtl m := by
    rw [extractMinTtl, hm]
  simp only [lifetimeSecs, hext, UInt32.lt_iff_toNat_lt]
  split <;> split <;> (try split) <;> omega

/-- Stored under its key, a body gets its lifetime. -/
theorem givenTtl_eq (hle : c.minTtl ≤ c.maxTtl) (hq : query.queries ≠ []) (now : Nat)
    (response : Bytes) :
    givenTtl H c now query response =
      some (Duration.fromSecs (lifetimeSecs H c.minTtl c.maxTtl response).toNat) := by
  obtain ⟨k, hk⟩ : ∃ k, cacheKey H query = some k := by
    obtain ⟨q, qs, hqs⟩ := List.exists_cons_of_ne_nil hq
    exact ⟨_, by rw [cacheKey, hqs]; rfl⟩
  simp [givenTtl, hk, put_of_key hk hle, LruCache.peek_put_self, lifetime]

/-- Different numbers of seconds are different times. -/
theorem fromSecs_inj {a b : Nat} : Duration.fromSecs a = Duration.fromSecs b ↔ a = b := by
  unfold Duration.fromSecs nanosPerSec
  omega

/-- The order of times is that of the seconds. -/
theorem fromSecs_le {a b : Nat} : Duration.fromSecs a ≤ Duration.fromSecs b ↔ a ≤ b := by
  unfold Duration.fromSecs nanosPerSec
  omega

/-- With answers, the seconds are the clamped least TTL, or `minTtl` when no
counted TTL is below `maxTtl`. -/
theorem toNat_lifetimeSecs_of_answers {minTtl maxTtl : UInt32} (hle : minTtl ≤ maxTtl)
    (hm : H.fromVec response = some m) (hans : m.answers ≠ []) {n : Nat}
    (hn : LeastTtl (counted m) n) :
    (lifetimeSecs H minTtl maxTtl response).toNat =
      if n < maxTtl.toNat then clampSecs minTtl maxTtl n else minTtl.toNat := by
  have hmin := toNat_minRecordTtl_of_least hn maxTtl
  have hsent : minRecordTtl maxTtl m = maxTtl ↔ ¬ n < maxTtl.toNat := by
    rw [← UInt32.toNat_inj, hmin]
    omega
  rw [toNat_lifetimeSecs hle hm, hmin, clampSecs]
  by_cases hlt : n < maxTtl.toNat
  · rw [if_neg (fun h => hsent.mp h.1 hlt), if_pos hlt]
  · rw [if_pos ⟨hsent.mpr hlt, by simpa using hans⟩, if_neg hlt]

/-- Without answers, they are whatever the fold found, at least `minTtl`. -/
theorem toNat_lifetimeSecs_of_nil {minTtl maxTtl : UInt32} (hle : minTtl ≤ maxTtl)
    (hm : H.fromVec response = some m) (hans : m.answers = []) :
    (lifetimeSecs H minTtl maxTtl response).toNat =
      max minTtl.toNat (minRecordTtl maxTtl m).toNat := by
  rw [toNat_lifetimeSecs hle hm, if_neg]
  simp [hans]

/-! ## raising TTLs -/

/-- A raised record comes from one of the records. -/
theorem mem_of_forall₂_right {l l' : List Record} (h : List.Forall₂ Raised l l') {r' : Record}
    (hr : r' ∈ l') : ∃ r ∈ l, Raised r r' := by
  induction h with
  | nil => cases hr
  | cons hab _ ih =>
      rcases List.mem_cons.mp hr with rfl | hr
      · exact ⟨_, List.mem_cons_self, hab⟩
      · obtain ⟨r, hmem, hraised⟩ := ih hr
        exact ⟨r, List.mem_cons_of_mem _ hmem, hraised⟩

/-- Every counted record of the raised message was counted, with no larger
TTL, before. -/
theorem counted_of_raised {m m' : Message} (h : RaisedTtls m m') {r' : Record}
    (hr : r' ∈ counted m') : ∃ r ∈ counted m, r.ttl ≤ r'.ttl := by
  rcases List.mem_append.mp hr with hr | hr
  · obtain ⟨r, hmem, t, hle, rfl⟩ := mem_of_forall₂_right h.answers hr
    exact ⟨r, List.mem_append_left _ hmem, hle⟩
  · rw [plainAdditionals, List.mem_filter] at hr
    obtain ⟨r, hmem, t, hle, rfl⟩ := mem_of_forall₂_right h.additionals hr.1
    exact ⟨r, List.mem_append_right _ (List.mem_filter.mpr ⟨hmem, hr.2⟩), hle⟩

/-- Raising TTLs does not lower the least one. -/
theorem leastTtl_le_of_raised {m m' : Message} (h : RaisedTtls m m') {n n' : Nat}
    (hn : LeastTtl (counted m) n) (hn' : LeastTtl (counted m') n') : n ≤ n' := by
  obtain ⟨r', hr', rfl⟩ := hn'.attained
  obtain ⟨r, hr, hle⟩ := counted_of_raised h hr'
  exact Nat.le_trans (hn.least r hr) (UInt32.le_iff_toNat_le.mp hle)

/-! ## bodies with answers -/

/-- **The lifetime of an answer.**  It is the least TTL clamped, and raising
TTLs to this body's has not shortened it, exactly when some counted TTL is
below `maxTtl` or the two bounds meet. -/
theorem lifetime_clamped_iff (H : Hickory) (c : DnsCache) (hle : c.minTtl ≤ c.maxTtl)
    (now : Nat) (query : Message) (hq : query.queries ≠ []) (response : Bytes) (m : Message)
    (hm : H.fromVec response = some m) (hans : m.answers ≠ []) (n : Nat)
    (hn : LeastTtl (counted m) n) :
    (givenTtl H c now query response =
        some (Duration.fromSecs (clampSecs c.minTtl c.maxTtl n)) ∧
      ∀ response₀ m₀, H.fromVec response₀ = some m₀ → RaisedTtls m₀ m →
        ∃ d₀ d, givenTtl H c now query response₀ = some d₀ ∧
          givenTtl H c now query response = some d ∧ d₀ ≤ d) ↔
      (∃ r ∈ counted m, r.ttl < c.maxTtl) ∨ c.minTtl = c.maxTtl := by
  have hbounds := UInt32.le_iff_toNat_le.mp hle
  have hsecs := toNat_lifetimeSecs_of_answers hle hm hans hn
  have hbelow : (∃ r ∈ counted m, r.ttl < c.maxTtl) ↔ n < c.maxTtl.toNat := by
    constructor
    · rintro ⟨r, hr, hlt⟩
      exact Nat.lt_of_le_of_lt (hn.least r hr) (UInt32.lt_iff_toNat_lt.mp hlt)
    · intro hlt
      obtain ⟨r, hr, rfl⟩ := hn.attained
      exact ⟨r, hr, UInt32.lt_iff_toNat_lt.mpr hlt⟩
  rw [hbelow, ← UInt32.toNat_inj]
  constructor
  · rintro ⟨hgiven, _⟩
    rw [givenTtl_eq hle hq, Option.some.injEq, fromSecs_inj, hsecs, clampSecs] at hgiven
    split at hgiven <;> omega
  · intro hcond
    have hclamp : (lifetimeSecs H c.minTtl c.maxTtl response).toNat =
        clampSecs c.minTtl c.maxTtl n := by
      rw [hsecs, clampSecs]
      split <;> omega
    refine ⟨by rw [givenTtl_eq hle hq, hclamp], ?_⟩
    intro response₀ m₀ hm₀ hraised
    have hans₀ : m₀.answers ≠ [] := by
      intro hnil
      have hlen := hraised.answers.length_eq
      rw [hnil] at hlen
      exact hans (List.length_eq_zero_iff.mp hlen.symm)
    obtain ⟨n₀, hn₀⟩ := exists_leastTtl (show counted m₀ ≠ [] by simp [counted, hans₀])
    have hmono : clampSecs c.minTtl c.maxTtl n₀ ≤ clampSecs c.minTtl c.maxTtl n :=
      clampSecs_mono (leastTtl_le_of_raised hraised hn₀ hn)
    have hfloor : c.minTtl.toNat ≤ clampSecs c.minTtl c.maxTtl n := Nat.le_max_left _ _
    refine ⟨_, _, givenTtl_eq hle hq now response₀, givenTtl_eq hle hq now response, ?_⟩
    rw [fromSecs_le, hclamp, toNat_lifetimeSecs_of_answers hle hm₀ hans₀ hn₀]
    split
    · exact hmono
    · exact hfloor

/-- An empty cache with the shipped TTL bounds. -/
def freshCache : DnsCache := ⟨LruCache.new 2 Nat.two_pos, 60, 86400⟩

theorem leastTtl_answer : LeastTtl (counted answer) 300 :=
  ⟨⟨_, List.mem_cons_self, rfl⟩, by simp [counted, answer, plainAdditionals, askA, Message.new]⟩

/-- A TTL of 300 is kept as it is. -/
theorem lifetime_clamped_a :
    givenTtl Wire.wire freshCache 0 askA answerA = some (Duration.fromSecs 300) :=
  ((lifetime_clamped_iff Wire.wire freshCache (by decide) 0 askA (by simp [askA]) answerA answer
    (by decide +kernel) (by simp [answer]) 300 leastTtl_answer).mpr
      (Or.inl ⟨_, List.mem_cons_self, by decide⟩)).1

/-- `answer` with a TTL of a day. -/
def day : Message := answer.setAnswerTtls 86400

def dayA : Bytes :=
  [4, 210, 129, 128, 0, 1, 0, 1, 0, 0, 0, 0, 1, 97, 0, 0, 1, 0, 1,
    1, 98, 0, 0, 1, 0, 1, 0, 1, 81, 128, 0, 4, 1, 2, 3, 4]

/-- Raising the TTL from 300 to 86400 cuts the lifetime from 300 to 60. -/
theorem day_answer_cut :
    Wire.wire.fromVec dayA = some day ∧ LeastTtl (counted day) 86400 ∧
      RaisedTtls answer day ∧
      givenTtl Wire.wire freshCache 0 askA answerA = some (Duration.fromSecs 300) ∧
      givenTtl Wire.wire freshCache 0 askA dayA = some (Duration.fromSecs 60) ∧
      Duration.fromSecs 60 ≠
        Duration.fromSecs (clampSecs freshCache.minTtl freshCache.maxTtl 86400) := by
  refine ⟨by decide +kernel, ?_, ?_, by decide +kernel, by decide +kernel, by decide⟩
  · exact ⟨⟨_, List.mem_cons_self, rfl⟩,
      by simp [counted, day, Message.setAnswerTtls, answer, plainAdditionals, askA, Message.new,
        Record.setTtl]⟩
  · exact ⟨.cons ⟨86400, by decide, rfl⟩ .nil, .nil, .nil, rfl⟩

/-! ## bodies without answers -/

/-- **The lifetime of a negative answer.**  No authority or additional record
outlives it, and it is `minTtl` when there is none, exactly when the two bounds
meet or there is such a record and each authority TTL reaches `maxTtl` or is
covered by an additional record. -/
theorem negative_lifetime_iff (H : Hickory) (c : DnsCache) (hle : c.minTtl ≤ c.maxTtl)
    (now : Nat) (query : Message) (hq : query.queries ≠ []) (response : Bytes) (m : Message)
    (hm : H.fromVec response = some m) (hans : m.answers = []) :
    (∃ d, givenTtl H c now query response = some d ∧
      (∀ r ∈ m.nameServers ++ plainAdditionals m,
        d ≤ Duration.fromSecs (max c.minTtl.toNat r.ttl.toNat)) ∧
      (m.nameServers ++ plainAdditionals m = [] → d = Duration.fromSecs c.minTtl.toNat)) ↔
      c.minTtl = c.maxTtl ∨
        (m.nameServers ++ plainAdditionals m ≠ [] ∧
          ∀ r ∈ m.nameServers, c.maxTtl ≤ r.ttl ∨
            ∃ s ∈ plainAdditionals m, s.ttl.toNat ≤ max c.minTtl.toNat r.ttl.toNat) := by
  have hbounds := UInt32.le_iff_toNat_le.mp hle
  have hsecs := toNat_lifetimeSecs_of_nil hle hm hans
  have hcounted : counted m = plainAdditionals m := by simp [counted, hans]
  have hfold := le_minRecordTtl_iff c.maxTtl m
  rw [hcounted] at hfold
  obtain ⟨hceil, hadd⟩ := (hfold _).mp (Nat.le_refl _)
  simp only [givenTtl_eq hle hq, Option.some.injEq, exists_eq_left', fromSecs_le, fromSecs_inj,
    hsecs]
  constructor
  · rintro ⟨hbound, hnone⟩
    by_cases hmeet : c.minTtl = c.maxTtl
    · exact Or.inl hmeet
    have hlt : c.minTtl.toNat < c.maxTtl.toNat := by
      rw [← UInt32.toNat_inj] at hmeet
      omega
    refine Or.inr ⟨?_, fun r hr => ?_⟩
    · intro hnil
      obtain ⟨_, hpa⟩ := List.append_eq_nil_iff.mp hnil
      have hmax := (hfold c.maxTtl.toNat).mpr ⟨Nat.le_refl _, by simp [hpa]⟩
      have hmin := hnone hnil
      omega
    · -- otherwise the fold ends above `r`
      by_contra hcon
      obtain ⟨hr', hs⟩ := not_or.mp hcon
      rw [UInt32.le_iff_toNat_le] at hr'
      have habove := (hfold (max c.minTtl.toNat r.ttl.toNat + 1)).mpr ⟨by omega, fun s hmem =>
        Nat.lt_of_not_le fun hle' => hs ⟨s, hmem, hle'⟩⟩
      have hr'' := hbound r (List.mem_append_left _ hr)
      omega
  · rintro (hmeet | ⟨hsome, hcover⟩)
    · rw [← UInt32.toNat_inj] at hmeet
      exact ⟨fun r _ => by omega, fun _ => by omega⟩
    · refine ⟨fun r hr => ?_, fun hnil => absurd hnil hsome⟩
      rcases List.mem_append.mp hr with hr | hr
      · rcases hcover r hr with hmax | ⟨s, hs, hle'⟩
        · rw [UInt32.le_iff_toNat_le] at hmax
          omega
        · have := hadd s hs
          omega
      · have := hadd r hr
        omega

/-- `nodata` with an additional A record that has a TTL of 120. -/
def glued : Message :=
  { nodata with additionals := [⟨nameB, 1, 1, 120, [1, 2, 3, 4]⟩] }

def gluedA : Bytes :=
  [4, 210, 129, 128, 0, 1, 0, 0, 0, 1, 0, 1, 1, 97, 0, 0, 1, 0, 1,
    1, 98, 0, 0, 2, 0, 1, 0, 0, 1, 44, 0, 1, 0,
    1, 98, 0, 0, 1, 0, 1, 0, 0, 0, 120, 0, 4, 1, 2, 3, 4]

/-- The additional record covers the authority record. -/
theorem negative_lifetime_glued :
    ∃ d, givenTtl Wire.wire freshCache 0 askA gluedA = some d ∧
      ∀ r ∈ glued.nameServers ++ plainAdditionals glued,
        d ≤ Duration.fromSecs (max 60 r.ttl.toNat) := by
  obtain ⟨d, hgiven, hbound, _⟩ :=
    (negative_lifetime_iff Wire.wire freshCache (by decide) 0 askA (by simp [askA]) gluedA glued
      (by decide +kernel) rfl).mpr (Or.inr ⟨by simp [glued, nodata], fun r hr =>
        Or.inr ⟨_, List.mem_cons_self, by
          rw [List.mem_singleton.mp hr]
          decide⟩⟩)
  exact ⟨d, hgiven, hbound⟩

/-- A negative answer whose authority TTL is 300 is kept for a day. -/
theorem nodata_kept_a_day :
    Wire.wire.fromVec nodataA = some nodata ∧ nodata.answers = [] ∧
      givenTtl Wire.wire freshCache 0 askA nodataA = some (Duration.fromSecs 86400) ∧
      ∃ r ∈ nodata.nameServers,
        Duration.fromSecs (max freshCache.minTtl.toNat r.ttl.toNat) < Duration.fromSecs 86400 :=
  ⟨by decide +kernel, rfl, by decide +kernel, _, List.mem_cons_self, by decide⟩

end Zebrafish.Dns.DnsCache
