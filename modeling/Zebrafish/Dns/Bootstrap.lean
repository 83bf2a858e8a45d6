import Zebrafish.Lib.Net
import Zebrafish.Dns.Config

/-!
# Zebrafish.Dns.Bootstrap

How the resolver reaches its own upstream (`doh.rs`, `config.rs`).  Its host
name cannot be looked up with the system resolver, which is the resolver
itself, so `BootstrapConnector` is to dial one of the provider's configured
addresses.

The connector compares two readings of the URL: its own (`dohHost`) and that
of `http::Uri`; and it hands the address over as text.  `dials_bootstrap_iff`
says for which URLs and lists both work out.  `http::Uri` and the plain
connector below it are not part of the repository: `Hyper` is their interface
and `Hyper.Documented` what is relied on.
-/

namespace Zebrafish.Dns

open Net

/-! ## the provider -/

def fallbackUrl : String := "https://cloudflare-dns.com/dns-query"

def Config.dohUrl (config : Config) : String :=
  if config.upstream.provider = "custom" then config.upstream.customUrl.getD fallbackUrl
  else
    ((config.upstream.providers.lookup config.upstream.provider).map ProviderConfig.url).getD
      fallbackUrl

def Config.bootstrapAddrs (config : Config) : List String :=
  if config.upstream.provider = "custom" then ["1.1.1.1"]
  else
    ((config.upstream.providers.lookup config.upstream.provider).map
      ProviderConfig.bootstrap).getD ["1.1.1.1"]

/-- The addresses of the list that parse. -/
def Config.bootstrapIps (config : Config) : List IpAddr :=
  config.bootstrapAddrs.filterMap fun ip => parseIp ip.toList

/-! ## the layers below -/

inductive Scheme
  | http
  | https
deriving DecidableEq

def Scheme.defaultPort : Scheme → UInt16
  | .http => 80
  | .https => 443

/-- A URI with an authority, as `http::Uri` reads it. -/
structure Uri where
  scheme : Scheme
  host : List Char
  port : Option UInt16
  pathAndQuery : List Char

/-- Where a connection goes: to an address, or to whatever address the system
resolver has for a name. -/
inductive Dial
  | ip (addr : IpAddr) (port : UInt16)
  | resolve (host : List Char) (port : UInt16)
deriving DecidableEq

/-- The authority reader of `http` and the connector of `hyper_util`. -/
structure Hyper where
  authority : List Char → Option (List Char × Option UInt16)
  connect : Uri → Dial

/-- `trim_start_matches('[').trim_end_matches(']')`. -/
def trimBrackets (host : List Char) : List Char :=
  ((host.dropWhile (· = '[')).reverse.dropWhile (· = ']')).reverse

/-- What is relied on: `a.b.c.d:port` is an authority, a text with more than
one colon outside brackets is not, and only hosts that are no address literals
are looked up. -/
structure Hyper.Documented (hyper : Hyper) : Prop where
  plain : ∀ (ip : Ipv4Addr) (port : UInt16),
    hyper.authority (ip.text ++ ':' :: port.toNat.repr.toList) = some (ip.text, some port)
  colons : ∀ cs, '[' ∉ cs → 1 < cs.count ':' → hyper.authority cs = none
  literal : ∀ uri ip, parseIp (trimBrackets uri.host) = some ip →
    hyper.connect uri = .ip ip (uri.port.getD uri.scheme.defaultPort)
  name : ∀ uri, parseIp (trimBrackets uri.host) = none →
    hyper.connect uri = .resolve uri.host (uri.port.getD uri.scheme.defaultPort)

/-! ## the connector -/

structure BootstrapConnector where
  bootstrapHost : List Char
  bootstrapAddrs : List (IpAddr × UInt16)

/-- `Uri::builder` with the scheme `http`; the path is one of an existing URI. -/
def buildUri (hyper : Hyper) (authority pathAndQuery : List Char) : Option Uri :=
  (hyper.authority authority).map fun a => ⟨.http, a.1, a.2, pathAndQuery⟩

def BootstrapConnector.call (hyper : Hyper) (c : BootstrapConnector) (uri : Uri) : Dial :=
  match c.bootstrapAddrs with
  | [] => hyper.connect uri
  | (ip, port) :: _ =>
      if uri.host = c.bootstrapHost then
        match buildUri hyper (ip.text ++ ':' :: port.toNat.repr.toList) uri.pathAndQuery with
        | some u => hyper.connect u
        | none => hyper.connect uri
      else hyper.connect uri

/-- `str::strip_prefix`. -/
def stripStart (start cs : List Char) : Option (List Char) :=
  if start.isPrefixOf cs then some (cs.drop start.length) else none

/-- The host as `DohClient::new` reads it: what follows `https://`, up to the
first slash. -/
def dohHost (url : List Char) : List Char :=
  ((stripStart "https://".toList url).getD url).takeWhile (· ≠ '/')

/-- The connector `DohClient::new` makes. -/
def Config.connector (config : Config) : BootstrapConnector :=
  ⟨dohHost config.dohUrl.toList, config.bootstrapIps.map fun ip => (ip, 443)⟩

/-! ## URLs -/

/-- An `https` URL: the scheme in any case, a host, perhaps a port, and a path
or a query or nothing. -/
structure DohUrl where
  scheme : List Char
  host : List Char
  port : Option UInt16
  rest : List Char
  scheme_eq : scheme.map Char.toLower = "https".toList
  host_slash : '/' ∉ host
  host_colon : ':' ∈ host → host.head? = some '['
  rest_head : rest = [] ∨ rest.head? = some '/' ∨ rest.head? = some '?'

def portText : Option UInt16 → List Char
  | none => []
  | some port => ':' :: port.toNat.repr.toList

def DohUrl.text (u : DohUrl) : List Char :=
  u.scheme ++ "://".toList ++ u.host ++ portText u.port ++ u.rest

/-- The port of the URL, 443 when it has none. -/
def DohUrl.effectivePort (u : DohUrl) : UInt16 := u.port.getD 443

/-- The URI is the URL as `http::Uri` reads it: `host()` excludes the port.
The client asks for a connection with this scheme, host and port. -/
structure DohUrl.Origin (u : DohUrl) (uri : Uri) : Prop where
  scheme : uri.scheme = .https
  host : uri.host = u.host
  port : uri.port = u.port

/-- The two readings of the host agree: the scheme is in lower case, there is
no port, and the path does not start with a query. -/
def DohUrl.Plain (u : DohUrl) : Prop :=
  u.scheme = "https".toList ∧ u.port = none ∧ (u.rest = [] ∨ u.rest.head? = some '/')

/-- What is in front of a character, behind a part without it. -/
theorem takeWhile_append_of_not_mem {c : Char} {xs : List Char} (h : c ∉ xs) (ys : List Char) :
    (xs ++ ys).takeWhile (· ≠ c) = xs ++ ys.takeWhile (· ≠ c) := by
  apply List.takeWhile_append_of_pos
  intro x hx
  have hne : x ≠ c := fun heq => h (heq ▸ hx)
  simpa using hne

/-- Up to a slash nothing stands exactly when the text is empty or starts with
one. -/
theorem takeWhile_eq_nil_iff {cs : List Char} :
    cs.takeWhile (· ≠ '/') = [] ↔ cs = [] ∨ cs.head? = some '/' := by
  cases cs with
  | nil => simp
  | cons c cs => by_cases h : c = '/' <;> simp [h]

/-- In lower case, the scheme is stripped. -/
theorem stripStart_text {u : DohUrl} (h : u.scheme = "https".toList) :
    stripStart "https://".toList u.text = some (u.host ++ portText u.port ++ u.rest) := by
  simp [stripStart, DohUrl.text, h]

/-- In any other case it is not. -/
theorem stripStart_text_of_ne {u : DohUrl} (h : u.scheme ≠ "https".toList) :
    stripStart "https://".toList u.text = none := by
  have hlen : u.scheme.length = 5 := by
    have hmap := congrArg List.length u.scheme_eq
    simpa using hmap
  refine if_neg fun hpre => h ?_
  obtain ⟨t, ht⟩ := List.isPrefixOf_iff_prefix.mp hpre
  have hsplit : "https".toList ++ ("://".toList ++ t) = u.scheme ++ ("://".toList ++
      (u.host ++ (portText u.port ++ u.rest))) := by
    rw [DohUrl.text, List.append_assoc, List.append_assoc, List.append_assoc] at ht
    exact ht
  exact (List.append_inj_left hsplit (by rw [hlen]; decide)).symm

/-- The scheme has no slash, and does not start with a bracket. -/
theorem DohUrl.not_mem_scheme (u : DohUrl) {c : Char} (hc : c.toLower ∉ "https".toList) :
    c ∉ u.scheme := by
  intro h
  have hmem : c.toLower ∈ u.scheme.map Char.toLower := List.mem_map_of_mem h
  rw [u.scheme_eq] at hmem
  exact hc hmem

/-- The two readings of the host agree on plain URLs only. -/
theorem dohHost_eq_host_iff (u : DohUrl) : dohHost u.text = u.host ↔ u.Plain := by
  by_cases hs : u.scheme = "https".toList
  · rw [dohHost, stripStart_text hs, Option.getD_some, List.append_assoc,
      takeWhile_append_of_not_mem u.host_slash, List.append_right_eq_self, takeWhile_eq_nil_iff]
    unfold DohUrl.Plain
    cases hp : u.port with
    | none => simp [hs, portText]
    | some port => simp [portText]
  · have hplain : ¬ u.Plain := fun h => hs h.1
    have hsplit : dohHost u.text = u.scheme ++ [':'] := by
      rw [dohHost, stripStart_text_of_ne hs, Option.getD_none, DohUrl.text, List.append_assoc,
        List.append_assoc, List.append_assoc,
        takeWhile_append_of_not_mem (u.not_mem_scheme (by decide))]
      simp
    refine ⟨fun h => absurd ?_ hplain, fun h => absurd h hplain⟩
    -- a host with a colon starts with a bracket
    rw [hsplit] at h
    have hhead := u.host_colon (by rw [← h]; simp)
    have hbracket := u.not_mem_scheme (c := '[') (by decide)
    rw [← h] at hhead
    cases hsch : u.scheme with
    | nil => simp [hsch] at hhead
    | cons c cs =>
        rw [hsch] at hhead hbracket
        simp only [List.cons_append, List.head?_cons, Option.some.injEq] at hhead
        exact absurd (hhead ▸ List.mem_cons_self) hbracket

/-! ## dialling -/

variable {hyper : Hyper}

/-- There is nothing to drop of a character that is not there. -/
theorem dropWhile_of_not_mem {c : Char} {cs : List Char} (h : c ∉ cs) :
    cs.dropWhile (· = c) = cs := by
  cases cs with
  | nil => rfl
  | cons x cs =>
      have hne : x ≠ c := fun heq => h (heq ▸ List.mem_cons_self)
      simp [hne]

/-- An IPv4 address has no brackets. -/
theorem trimBrackets_text (ip : Ipv4Addr) : trimBrackets ip.text = ip.text := by
  have hnot : ∀ c : Char, c ≠ '.' → c.isDigit = false → c ∉ ip.text := by
    intro c hdot hdigit h
    rcases mem_ipv4_text h with h | h
    · exact hdot h
    · rw [hdigit] at h
      cases h
  have hopen := hnot '[' (by decide) (by decide)
  have hclose := hnot ']' (by decide) (by decide)
  rw [trimBrackets, dropWhile_of_not_mem hopen, dropWhile_of_not_mem (by simpa using hclose),
    List.reverse_reverse]

/-- An IPv4 address as authority is dialled. -/
theorem connect_buildUri_v4 (hdoc : hyper.Documented) (ip : Ipv4Addr) (port : UInt16)
    (pathAndQuery : List Char) :
    ∃ u, buildUri hyper (IpAddr.text (.v4 ip) ++ ':' :: port.toNat.repr.toList) pathAndQuery =
      some u ∧ hyper.connect u = .ip (.v4 ip) port := by
  refine ⟨⟨.http, ip.text, some port, pathAndQuery⟩, ?_, ?_⟩
  · rw [buildUri, IpAddr.text, hdoc.plain]
    rfl
  · have hparse : parseIp (trimBrackets ip.text) = some (.v4 ip) := by
      rw [trimBrackets_text, parseIp_text]
    exact hdoc.literal _ _ hparse

/-- An IPv6 address makes no authority. -/
theorem buildUri_v6 (hdoc : hyper.Documented) (ip : Ipv6Addr) (port : UInt16)
    (pathAndQuery : List Char) :
    buildUri hyper (IpAddr.text (.v6 ip) ++ ':' :: port.toNat.repr.toList) pathAndQuery = none := by
  have hcount := two_le_count_text ip
  have hbracket : '[' ∉ IpAddr.text (.v6 ip) ++ ':' :: port.toNat.repr.toList := by
    intro h
    rcases List.mem_append.mp h with h | h
    · exact bracket_not_mem_text ip h
    · rcases List.mem_cons.mp h with h | h
      · cases h
      · have hdigit := List.all_eq_true.mp (Rust.isDigit_repr port.toNat) _ h
        cases hdigit
  have hcolons : 1 < (IpAddr.text (.v6 ip) ++ ':' :: port.toNat.repr.toList).count ':' := by
    rw [List.count_append, IpAddr.text]
    omega
  rw [buildUri, hdoc.colons _ hbracket hcolons]
  rfl

/-- Left to the plain connector, a URL is dialled at a listed address exactly
when its host is one. -/
theorem connect_listed_iff (hdoc : hyper.Documented) {u : DohUrl} {uri : Uri}
    (h : u.Origin uri) (ips : List IpAddr) :
    (∃ ip ∈ ips, hyper.connect uri = .ip ip u.effectivePort) ↔
      ∃ ip ∈ ips, parseIp (trimBrackets u.host) = some ip := by
  have hport : uri.port.getD uri.scheme.defaultPort = u.effectivePort := by
    rw [h.port, h.scheme]
    rfl
  cases hparse : parseIp (trimBrackets uri.host) with
  | none =>
      rw [hdoc.name uri hparse, ← h.host, hparse]
      simp
  | some ip =>
      rw [hdoc.literal uri ip hparse, hport, ← h.host, hparse]
      simp

/-- **Bootstrapping.**  A connection for the URL is dialled to an address of
the provider's list, on the URL's port, exactly when the URL is plain and the
first usable address is IPv4, or the host of the URL is itself an address of
the list. -/
theorem dials_bootstrap_iff (hyper : Hyper) (hdoc : hyper.Documented) (config : Config)
    (u : DohUrl) (hurl : config.dohUrl.toList = u.text) (uri : Uri) (huri : u.Origin uri) :
    (∃ ip ∈ config.bootstrapIps,
        config.connector.call hyper uri = .ip ip u.effectivePort) ↔
      (u.Plain ∧ ∃ ip, config.bootstrapIps.head? = some (.v4 ip)) ∨
        ∃ ip ∈ config.bootstrapIps, parseIp (trimBrackets u.host) = some ip := by
  have hfall := connect_listed_iff hdoc huri config.bootstrapIps
  have hhost : uri.host = dohHost u.text ↔ u.Plain := by
    rw [huri.host, eq_comm, dohHost_eq_host_iff]
  unfold BootstrapConnector.call Config.connector
  rw [hurl]
  cases hips : config.bootstrapIps with
  | nil => simp
  | cons first ips =>
      rw [hips] at hfall
      simp only [List.map_cons, List.head?_cons, Option.some.injEq]
      by_cases hplain : u.Plain
      · rw [if_pos (hhost.mpr hplain)]
        cases first with
        | v4 ip =>
            obtain ⟨v, hbuild, hconnect⟩ := connect_buildUri_v4 hdoc ip 443 uri.pathAndQuery
            have heff : u.effectivePort = 443 := by rw [DohUrl.effectivePort, hplain.2.1]; rfl
            rw [hbuild]
            simp only [hconnect, heff]
            exact ⟨fun _ => Or.inl ⟨hplain, ip, rfl⟩, fun _ => ⟨.v4 ip, List.mem_cons_self, rfl⟩⟩
        | v6 ip =>
            rw [buildUri_v6 hdoc]
            simpa using hfall
      · rw [if_neg (fun h => hplain (hhost.mp h))]
        simpa [hplain] using hfall

/-! ## some configurations -/

/-- An authority reader for names and IPv4 addresses with an optional port,
over a connector that behaves as documented. -/
def plainHyper : Hyper where
  authority cs :=
    if 1 < cs.count ':' then none
    else
      match cs.dropWhile (· ≠ ':') with
      | [] => some (cs, none)
      | _ :: digits => (Rust.parseDigits digits).bind fun n =>
          if n < 65536 then some (cs.takeWhile (· ≠ ':'), some (UInt16.ofNat n)) else none
  connect uri :=
    let port := uri.port.getD uri.scheme.defaultPort
    match parseIp (trimBrackets uri.host) with
    | some ip => .ip ip port
    | none => .resolve uri.host port

/-- The client of the tests does as documented. -/
theorem documented_plainHyper : plainHyper.Documented where
  plain := by
    intro ip port
    have hip : ':' ∉ ip.text := fun h => by
      rcases mem_ipv4_text h with h | h <;> cases h
    have hport : ':' ∉ port.toNat.repr.toList := fun h => by
      have hdigit := List.all_eq_true.mp (Rust.isDigit_repr port.toNat) _ h
      cases hdigit
    have hcount : (ip.text ++ ':' :: port.toNat.repr.toList).count ':' = 1 := by
      rw [List.count_append, List.count_cons_self, List.count_eq_zero.mpr hip,
        List.count_eq_zero.mpr hport]
    have hdrop : (ip.text ++ ':' :: port.toNat.repr.toList).dropWhile (· ≠ ':') =
        ':' :: port.toNat.repr.toList := by
      rw [List.dropWhile_append_of_pos]
      · simp
      · intro c hc
        have hne : c ≠ ':' := fun heq => hip (heq ▸ hc)
        simpa using hne
    have htake : (ip.text ++ ':' :: port.toNat.repr.toList).takeWhile (· ≠ ':') = ip.text := by
      rw [takeWhile_append_of_not_mem hip]
      simp
    simp only [plainHyper, hcount, hdrop, htake, Nat.lt_irrefl, if_false,
      Rust.parseDigits_repr, Option.bind_some, if_pos port.toNat_lt]
    simp
  colons := fun cs _ h => if_pos h
  literal := fun uri ip h => by simp [plainHyper, h]
  name := fun uri h => by simp [plainHyper, h]

/-- A configuration with one provider. -/
def oneProvider (url : String) (bootstrap : List String) : Config :=
  { fileConfig 60 with
    upstream := ⟨"cloudflare", none, [("cloudflare", ⟨url, bootstrap⟩)]⟩ }

/-- `https://cloudflare-dns.com/dns-query`, perhaps with a port. -/
def cloudflareUrl (port : Option UInt16) : DohUrl where
  scheme := "https".toList
  host := "cloudflare-dns.com".toList
  port := port
  rest := "/dns-query".toList
  scheme_eq := by decide
  host_slash := by decide
  host_colon := by decide
  rest_head := by decide

def cloudflareUri (port : Option UInt16) : Uri := ⟨.https, "cloudflare-dns.com".toList, port, ['/']⟩

/-- The host and the port of the URL. -/
theorem origin_cloudflareUri (port : Option UInt16) :
    (cloudflareUrl port).Origin (cloudflareUri port) := ⟨rfl, rfl, rfl⟩

/-- The shipped provider is dialled at an address of its list. -/
theorem dials_bootstrap_cloudflare :
    ∃ ip ∈ (oneProvider "https://cloudflare-dns.com/dns-query" ["1.1.1.1", "1.0.0.1"]).bootstrapIps,
      (oneProvider "https://cloudflare-dns.com/dns-query" ["1.1.1.1", "1.0.0.1"]).connector.call
        plainHyper (cloudflareUri none) = .ip ip 443 :=
  (dials_bootstrap_iff plainHyper documented_plainHyper
    (oneProvider "https://cloudflare-dns.com/dns-query" ["1.1.1.1", "1.0.0.1"])
    (cloudflareUrl none) (by decide +kernel) (cloudflareUri none) (origin_cloudflareUri none)).mpr
    (Or.inl ⟨⟨rfl, rfl, Or.inr (by decide)⟩, ⟨1, 1, 1, 1⟩, by decide +kernel⟩)

/-- With an IPv6 address in front, or with a port in the URL, the name goes to
the system resolver. -/
theorem hostname_resolved :
    (oneProvider "https://cloudflare-dns.com/dns-query"
        ["2606:4700:4700::1111", "1.1.1.1"]).connector.call plainHyper (cloudflareUri none) =
        .resolve "cloudflare-dns.com".toList 443 ∧
      (oneProvider "https://cloudflare-dns.com:8443/dns-query" ["1.1.1.1"]).connector.call
        plainHyper (cloudflareUri (some 8443)) = .resolve "cloudflare-dns.com".toList 8443 ∧
      "https://cloudflare-dns.com/dns-query".toList = (cloudflareUrl none).text ∧
      "https://cloudflare-dns.com:8443/dns-query".toList = (cloudflareUrl (some 8443)).text := by
  decide +kernel

end Zebrafish.Dns
