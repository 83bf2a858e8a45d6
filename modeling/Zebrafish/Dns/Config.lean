import Zebrafish.Toml.Serde
import Zebrafish.Dns.Doh

/-!
# Zebrafish.Dns.Config

The resolver's configuration (`config.rs`), read from TOML, and what it means
for the cache: the TTL bounds and the capacity are taken as they are, and
`never_panics_iff` says which of them make some operation of the cache panic.
-/

namespace Zebrafish.Dns

open Rust Toml
open DnsCache (Call Obs cacheKey)

/-! ## the file -/

/-- `usize`, on the 64-bit machines the resolver is built for. -/
def usize : Codec UInt64 :=
  Codec.unsigned 64 UInt64.ofNat UInt64.toNat UInt64.toNat_lt fun n h => by
    rw [UInt64.toNat_ofNat']
    exact Nat.mod_eq_of_lt h

def u32 : Codec UInt32 :=
  Codec.unsigned 32 UInt32.ofNat UInt32.toNat UInt32.toNat_lt fun n h => by
    rw [UInt32.toNat_ofNat']
    exact Nat.mod_eq_of_lt h

structure ServerConfig where
  listenAddress : String
  listenPort : UInt16
  listenAddressV6 : String
  workers : UInt64

structure ProviderConfig where
  url : String
  bootstrap : List String

structure UpstreamConfig where
  provider : String
  customUrl : Option String
  providers : List (String × ProviderConfig)

structure CacheConfig where
  maxEntries : UInt64
  minTtl : UInt32
  maxTtl : UInt32
deriving DecidableEq

structure LoggingConfig where
  level : String

structure QueryLogConfig where
  enabled : Bool
  output : Option String

structure Config where
  server : ServerConfig
  upstream : UpstreamConfig
  cache : CacheConfig
  logging : LoggingConfig
  queryLog : QueryLogConfig

/-- As `Deserialize` derives it, here as for the structs below: from a table, or
from an array of the fields in their order. -/
def ServerConfig.de (v : Value) : Option ServerConfig := do
  let s ← v.source
  let (listenAddress, s) ← s.field "listen_address" Codec.string.de none
  let (listenPort, s) ← s.field "listen_port" Codec.u16.de none
  let (listenAddressV6, s) ← s.field "listen_address_v6" Codec.string.de (some "::")
  let (workers, _) ← s.field "workers" usize.de (some 0)
  pure ⟨listenAddress, listenPort, listenAddressV6, workers⟩

def ProviderConfig.de (v : Value) : Option ProviderConfig := do
  let s ← v.source
  let (url, s) ← s.field "url" Codec.string.de none
  let (bootstrap, _) ← s.field "bootstrap" Codec.string.array.de none
  pure ⟨url, bootstrap⟩

/-- A `HashMap`, which unlike a struct is read from a table only. -/
def hashMap {β : Type} (de : Value → Option β) : Value → Option (List (String × β))
  | .table entries => entries.mapM fun e => (de e.2).map fun b => (e.1, b)
  | _ => none

/-- From a table or an array, whichever `source` takes it for. -/
def UpstreamConfig.de (v : Value) : Option UpstreamConfig := do
  let s ← v.source
  let (provider, s) ← s.field "provider" Codec.string.de none
  let (customUrl, s) ← s.field "custom_url" (fun v => (Codec.string.de v).map some) (some none)
  let (providers, _) ← s.field "providers" (hashMap ProviderConfig.de) (some [])
  pure ⟨provider, customUrl, providers⟩

def defaultMaxEntries : UInt64 := 10000

def defaultMinTtl : UInt32 := 60

def defaultMaxTtl : UInt32 := 86400

def CacheConfig.de (v : Value) : Option CacheConfig := do
  let s ← v.source
  let (maxEntries, s) ← s.field "max_entries" usize.de (some defaultMaxEntries)
  let (minTtl, s) ← s.field "min_ttl" u32.de (some defaultMinTtl)
  let (maxTtl, _) ← s.field "max_ttl" u32.de (some defaultMaxTtl)
  pure ⟨maxEntries, minTtl, maxTtl⟩

def LoggingConfig.de (v : Value) : Option LoggingConfig := do
  let s ← v.source
  let (level, _) ← s.field "level" Codec.string.de (some "info")
  pure ⟨level⟩

/-- `QueryLogConfig::default`. -/
def QueryLogConfig.default : QueryLogConfig := ⟨false, none⟩

/-- From a table or an array too. -/
def QueryLogConfig.de (v : Value) : Option QueryLogConfig := do
  let s ← v.source
  let (enabled, s) ← s.field "enabled" Codec.boolean.de (some false)
  let (output, _) ← s.field "output" (fun v => (Codec.string.de v).map some) (some none)
  pure ⟨enabled, output⟩

def Config.de (v : Value) : Option Config := do
  let s ← v.source
  let (server, s) ← s.field "server" ServerConfig.de none
  let (upstream, s) ← s.field "upstream" UpstreamConfig.de none
  let (cache, s) ← s.field "cache" CacheConfig.de none
  let (logging, s) ← s.field "logging" LoggingConfig.de none
  let (queryLog, _) ← s.field "query_log" QueryLogConfig.de (some .default)
  pure ⟨server, upstream, cache, logging, queryLog⟩

/-- `Config::load` of a file's text; `parse` reads TOML. -/
def Config.load (parse : String → Option Value) (content : String) : Option Config := do
  let v ← parse content
  Config.de v

/-! ## the cache it asks for -/

/-- The cache the server starts with. -/
def startCache (allocates : Nat → Bool) (config : Config) : Except Panic DnsCache :=
  DnsCache.new allocates config.cache.maxEntries.toNat config.cache.minTtl config.cache.maxTtl

/-- No operation of the cache panics, whatever is asked and answered, and
when. -/
def NeverPanics (H : Hickory) (allocates : Nat → Bool) (config : Config) : Prop :=
  ∀ calls : List Call, ∃ c' hist,
    (do let c ← startCache allocates config; DnsCache.run H c [] calls) = .ok (c', hist)

/-- Calls do not panic when the TTL bounds are in order. -/
theorem run_ok (H : Hickory) {c : DnsCache} (hle : c.minTtl ≤ c.maxTtl) (hist : List Obs)
    (calls : List Call) : ∃ c' hist', DnsCache.run H c hist calls = .ok (c', hist') := by
  induction calls generalizing c hist with
  | nil => exact ⟨c, hist, rfl⟩
  | cons call calls ih =>
      obtain ⟨c₁, o, hstep, hset⟩ : ∃ c₁ o, DnsCache.step H c call = .ok (c₁, o) ∧
          DnsCache.SameSettings c c₁ := by
        cases call with
        | put t q r =>
            obtain ⟨c₁, hput, hset⟩ := DnsCache.put_ok H hle t q r
            refine ⟨c₁, .put t q r, ?_, hset⟩
            simp [DnsCache.step, hput, bind, Except.bind, pure, Except.pure]
        | get t q =>
            obtain ⟨answer, c₁, hget, hset⟩ := DnsCache.get_ok H c t q
            refine ⟨c₁, if answer.isSome then .hit t q else .miss t q, ?_, hset⟩
            simp [DnsCache.step, hget, bind, Except.bind, pure, Except.pure]
      have hle₁ : c₁.minTtl ≤ c₁.maxTtl := by rw [hset.2.1, hset.2.2]; exact hle
      obtain ⟨c₂, hist₂, hrun⟩ := ih hle₁ (o :: hist)
      exact ⟨c₂, hist₂, by simp [DnsCache.run, hstep, hrun, bind, Except.bind]⟩

/-- Any query with a question. -/
def anyQuery : Message := { Message.new with queries := [⟨⟨[]⟩, 1, 1⟩] }

/-- **The cache's panics.**  For every configuration, and so for each one the
resolver loads, no operation of the cache can panic exactly when the TTL bounds
are in order and the capacity can be allocated. -/
theorem never_panics_iff (H : Hickory) (allocates : Nat → Bool) (config : Config) :
    NeverPanics H allocates config ↔
      config.cache.minTtl ≤ config.cache.maxTtl ∧
        allocates (max config.cache.maxEntries.toNat 1) = true := by
  have hpos : 0 < max config.cache.maxEntries.toNat 1 := by omega
  constructor
  · intro h
    obtain ⟨c, hist, hstart⟩ := h []
    obtain ⟨c₀, hnew, _⟩ := bind_ok_iff.mp hstart
    obtain ⟨_, _, hmin, hmax⟩ := DnsCache.agrees_new H 0 hnew
    refine ⟨?_, ?_⟩
    · by_contra hle
      obtain ⟨c', hist', hput⟩ := h [.put 0 anyQuery []]
      obtain ⟨c₁, hnew₁, hrun⟩ := bind_ok_iff.mp hput
      rw [hnew] at hnew₁
      cases hnew₁
      rw [← hmin, ← hmax] at hle
      have hkey : ∃ k, cacheKey H anyQuery = some k := ⟨_, rfl⟩
      obtain ⟨k, hk⟩ := hkey
      simp [DnsCache.run, DnsCache.step, DnsCache.put, hk, clamp_of_not_le hle, bind,
        Except.bind] at hrun
    · by_contra hno
      simp [startCache, DnsCache.new, nonZero, hpos, unwrap, hno, bind, Except.bind, throw,
        throwThe, MonadExceptOf.throw] at hnew
  · rintro ⟨hle, halloc⟩ calls
    obtain ⟨c₀, hnew⟩ : ∃ c₀, startCache allocates config = .ok c₀ := by
      simp [startCache, DnsCache.new, nonZero, hpos, unwrap, halloc, bind, Except.bind, pure,
        Except.pure]
    obtain ⟨_, _, hmin, hmax⟩ := DnsCache.agrees_new H 0 hnew
    have hle₀ : c₀.minTtl ≤ c₀.maxTtl := by rw [hmin, hmax]; exact hle
    obtain ⟨c', hist', hrun⟩ := run_ok H hle₀ [] calls
    exact ⟨c', hist', by simp [hnew, hrun, bind, Except.bind]⟩

/-- A file that sets only the lower TTL bound of the cache. -/
def minTtlText : String :=
  "[server]\nlisten_address = \"0.0.0.0\"\nlisten_port = 53\n" ++
    "[upstream]\nprovider = \"cloudflare\"\n[cache]\nmin_ttl = 100000\n[logging]\n"

/-- A file that leaves the cache its defaults. -/
def defaultsText : String :=
  "[server]\nlisten_address = \"0.0.0.0\"\nlisten_port = 53\n" ++
    "[upstream]\nprovider = \"cloudflare\"\n[cache]\n[logging]\n"

/-- What the two files say. -/
def fileValue (cache : Entries) : Value :=
  .table [("server", .table [("listen_address", .string "0.0.0.0"), ("listen_port", .integer 53)]),
    ("upstream", .table [("provider", .string "cloudflare")]), ("cache", .table cache),
    ("logging", .table [])]

/-- A TOML reader, as far as the two files go. -/
def readFiles (text : String) : Option Value :=
  if text = minTtlText then some (fileValue [("min_ttl", .integer 100000)])
  else if text = defaultsText then some (fileValue [])
  else none

def fileConfig (minTtl : UInt32) : Config where
  server := ⟨"0.0.0.0", 53, "::", 0⟩
  upstream := ⟨"cloudflare", none, []⟩
  cache := ⟨10000, minTtl, 86400⟩
  logging := ⟨"info"⟩
  queryLog := ⟨false, none⟩

/-- The reply to the first query of a server. -/
def firstReply (config : Config) (outcome : Upstream) (queryBytes : Bytes) :
    Except Panic (Except ResolveError DnsResult) := do
  let c ← startCache (fun _ => true) config
  let (r, _) ← resolve Wire.wire c 0 0 outcome queryBytes
  pure r

/-- A lower bound above the default upper one is loaded, and the first answer
from upstream panics. -/
theorem min_ttl_above_default_panics :
    Config.load readFiles minTtlText = some (fileConfig 100000) ∧
      ¬ NeverPanics Wire.wire (fun _ => true) (fileConfig 100000) ∧
      firstReply (fileConfig 100000) (.response 200 5 (some DnsCache.answerA)) (askBytes false) =
        .error .clampMinAboveMax := by
  refine ⟨rfl, ?_, by decide +kernel⟩
  intro h
  obtain ⟨c', hist, hput⟩ := h [.put 0 DnsCache.askA DnsCache.answerA]
  cases hput

/-- The defaults are safe. -/
theorem never_panics_defaults :
    Config.load readFiles defaultsText = some (fileConfig 60) ∧
      NeverPanics Wire.wire (fun _ => true) (fileConfig 60) :=
  ⟨rfl, (never_panics_iff Wire.wire (fun _ => true) (fileConfig 60)).mpr (by decide)⟩

end Zebrafish.Dns
