import Zebrafish.Lib.Ifup
import Zebrafish.System.TunnelFile
import Zebrafish.System.Sections

/-!
# Zebrafish.System.Interfaces

`/etc/network/interfaces` (`init.d/S12ip`), which the script puts together from
the sections `ipv4` and `ipv6`.

Addresses it asks for one by one, name servers it takes from the variables of a
section, with loops over numbered names.  `ipv4Text_spec` and `ipv6Text_spec` say
what it has of a section; `interfaces_read` is about the file.
-/

namespace Zebrafish.System.Interfaces

open Toml Shell ConfigTool
open Credentials (zfHasPresent)

/-! ## the script -/

/-- What `zebrafish-config --quiet get` prints, in `$(…)`. -/
def captured (D : Display) (c : Config) (key : String) (default : Option String) : String :=
  match KeyPath.parse key with
  | none => ""
  | some path =>
      match getKey D c path ⟨key, default, false⟩ with
      | .ok output => String.ofList (capture output.text.toList)
      | .error _ => ""

/-- `$(zf_get …)`. -/
def zfGet (D : Display) (c : Config) (key : String) : String := captured D c key none

/-- `$(zf_get_default …)`. -/
def zfGetDefault (D : Display) (c : Config) (key default : String) : String :=
  captured D c key (some default)

/-- One more name server. -/
def addServer (text server : String) : String := if text = "" then server else text ++ " " ++ server

/-- The loop over `<var>_0`, `<var>_1`, …; `none` if a variable is not set, which
`set -u` does not allow. -/
def nameservers (var : String) (vars : Env) : Option String := do
  let count ← valueOf vars (var ++ "_COUNT")
  (List.range (number count)).foldlM (fun text i => do
    let server ← valueOf vars (var ++ "_" ++ toString i)
    pure (addServer text server)) ""

/-- The name servers of a section, or a default. -/
def servers (D : Display) (c : Config) (sec var default : String) (vars : Env) :
    Option (String × Env) :=
  if zfHasPresent D c (sec ++ ".dns") then do
    let vars ← evalOutput vars (listOutput D c sec)
    let text ← nameservers var vars
    pure (text, vars)
  else pure (default, vars)

/-- `network_file+="…"`, with the values that are put in. -/
def block (head : String) (pieces : List (String × String)) : List Char :=
  head.toList ++ pieces.flatMap fun p => p.1.toList ++ p.2.toList

def ipv4Block (address broadcast subnet gateway nameservers : String) : List Char :=
  block "\niface eth0 inet static"
    [("\n    address ", address), ("\n    broadcast ", broadcast), ("\n    netmask ", subnet),
      ("\n    gateway ", gateway), ("\n    pointopoint ", gateway),
      ("\n    dns-nameservers ", nameservers)]

def ipv4Text (D : Display) (c : Config) (vars : Env) : Option (List Char × Env) :=
  if zfHasPresent D c "ipv4.address" then do
    let address := zfGet D c "ipv4.address"
    let broadcast := zfGetDefault D c "ipv4.broadcast" address
    let subnet := zfGetDefault D c "ipv4.subnet" "255.255.255.255"
    let gateway := zfGetDefault D c "ipv4.gateway" "172.31.1.1"
    let (nameservers, vars) ← servers D c "ipv4" "IPV4_DNS" "127.0.0.1" vars
    pure (ipv4Block address broadcast subnet gateway nameservers, vars)
  else pure ([], vars)

def ipv6Block (address netmask gateway nameservers : String) : List Char :=
  block "\niface eth0 inet6 static"
    [("\n    address ", address), ("\n    netmask ", netmask),
      ("\n    dns-nameservers ", nameservers), ("\n    gateway ", gateway)]

def ipv6Text (D : Display) (c : Config) (vars : Env) : Option (List Char × Env) :=
  if zfHasPresent D c "ipv6.address" then do
    let address := zfGet D c "ipv6.address"
    let netmask := zfGetDefault D c "ipv6.netmask" "64"
    let gateway := zfGetDefault D c "ipv6.gateway" "fe80::1"
    let (nameservers, vars) ← servers D c "ipv6" "IPV6_DNS" "::1" vars
    pure (ipv6Block address netmask gateway nameservers, vars)
  else pure ([], vars)

/-- The file, as a fresh shell writes it. -/
def interfacesFile (D : Display) (c : Config) : Option (List Char) := do
  let networkFile := "auto lo\niface lo inet loopback\n".toList
  let auto := if zfHasPresent D c "ipv4.address" then "\nauto eth0".toList else []
  let (ipv4, vars) ← ipv4Text D c []
  let (ipv6, _) ← ipv6Text D c vars
  pure (echoE .plain (networkFile ++ auto ++ ipv4 ++ ipv6))

/-! ## what is configured -/

def isWordChar (ch : Char) : Bool := !isIfs ch && ch ≠ '\\' && ch ≠ Char.ofNat 0

/-- A text that is a word, and that `echo -e` prints as it is. -/
def IsWord (s : String) : Prop := s ≠ "" ∧ s.toList.all isWordChar

instance (s : String) : Decidable (IsWord s) :=
  inferInstanceAs (Decidable (s ≠ "" ∧ s.toList.all isWordChar))

/-- The texts of a section. -/
def texts (i : IpConfig) : List String :=
  i.address.toList ++ i.broadcast.toList ++ i.subnet.toList ++ i.gateway.toList ++ i.dns

/-- An option with its values. -/
def option (key : String) (values : List String) : Ifup.Word × List Ifup.Word :=
  (key.toList, values.map String.toList)

/-- The name servers, or a default. -/
def dnsOr (default : String) (i : IpConfig) : List String :=
  if i.dns.isEmpty then [default] else i.dns

def loopback : Ifup.Iface := ⟨"lo".toList, "inet".toList, "loopback".toList, []⟩

def ipv4Iface (i : IpConfig) (address : String) : Ifup.Iface where
  name := "eth0".toList
  family := "inet".toList
  method := "static".toList
  options :=
    [option "address" [address], option "broadcast" [i.broadcast.getD address],
      option "netmask" [i.subnet.getD "255.255.255.255"],
      option "gateway" [i.gateway.getD "172.31.1.1"],
      option "pointopoint" [i.gateway.getD "172.31.1.1"],
      option "dns-nameservers" (dnsOr "127.0.0.1" i)]

def ipv6Iface (i : IpConfig) (address : String) : Ifup.Iface where
  name := "eth0".toList
  family := "inet6".toList
  method := "static".toList
  options :=
    [option "address" [address],
      option "netmask" [(i.netmask.map fun n => toString n.toNat).getD "64"],
      option "dns-nameservers" (dnsOr "::1" i), option "gateway" [i.gateway.getD "fe80::1"]]

/-- The interface of a section with an address. -/
def ifaceOf (iface : IpConfig → String → Ifup.Iface) (configured : Option IpConfig) :
    List Ifup.Iface :=
  (configured.bind fun i => i.address.map (iface i)).toList

/-- The interfaces of a configuration.  Only an IPv4 address brings `eth0` up at
boot. -/
def interfacesOf (c : Config) : Ifup.Interfaces where
  autos := "lo".toList :: if (c.ipv4.bind (·.address)).isSome then ["eth0".toList] else []
  ifaces := loopback :: (ifaceOf ipv4Iface c.ipv4 ++ ifaceOf ipv6Iface c.ipv6)

/-! ## what is asked for -/

/-- The section `ipv4`, as it is walked. -/
theorem Config.walk_ipv4 (c : Config) (tail : List Segment) :
    walkSegments (.field "ipv4" :: tail) c.view =
      (c.ipv4.map IpConfig.codec.ser).bind (walkSegments tail) := by
  rw [Config.view, Config.codec, walk_struct (by decide +kernel)]
  simp only [Fields.optional, Fields.vec, Fields.cons, Fields.nil, lookup_entry]
  simp

/-- The section `ipv6`, as it is walked. -/
theorem Config.walk_ipv6 (c : Config) (tail : List Segment) :
    walkSegments (.field "ipv6" :: tail) c.view =
      (c.ipv6.map IpConfig.codec.ser).bind (walkSegments tail) := by
  rw [Config.view, Config.codec, walk_struct (by decide +kernel)]
  simp only [Fields.optional, Fields.vec, Fields.cons, Fields.nil, lookup_entry]
  simp

/-- The fields of either section. -/
theorem IpConfig.walk_field (i : IpConfig) (k : String) (tail : List Segment) :
    walkSegments (.field k :: tail) (IpConfig.codec.ser i) =
      (if k = "address" then i.address.map .string
      else if k = "broadcast" then i.broadcast.map .string
      else if k = "subnet" then i.subnet.map .string
      else if k = "netmask" then i.netmask.map fun n => .integer n.toNat
      else if k = "gateway" then i.gateway.map .string
      else if k = "dns" then if i.dns.isEmpty then none else some (Codec.string.array.ser i.dns)
      else none).bind (walkSegments tail) := by
  rw [IpConfig.codec, walk_struct (by decide +kernel)]
  simp only [Fields.optional, Fields.vec, Fields.cons, Fields.nil]
  generalize (if i.dns.isEmpty then none else some (Codec.string.array.ser i.dns)) = dns
  congr 1
  split_ifs with haddress hbroadcast hsubnet hnetmask hgateway hdns
  case neg => simp only [lookup_entry_append_of_ne, List.lookup_nil, ne_eq, not_false_eq_true, *]
  all_goals
    subst_vars
    simp only [lookup_entry]
    simp [Codec.string, Codec.u8, Codec.unsigned]

/-- A key names a field of a section. -/
def IsField (key sec k : String) : Prop :=
  (KeyPath.parse key).map KeyPath.segments = some [.field sec, .field k]

instance (key sec k : String) : Decidable (IsField key sec k) :=
  inferInstanceAs (Decidable (_ = _))

/-- `sec` is a section with addresses, and its name servers are in variables that
begin with `var`. -/
structure IpSection (c : Config) (sec var : String) (configured : Option IpConfig) : Prop where
  walk : ∀ tail, walkSegments (.field sec :: tail) c.view =
    (configured.map IpConfig.codec.ser).bind (walkSegments tail)
  parse : IsField (sec ++ ".dns") sec "dns"
  count : HasSlot Config.ty [.field sec, .field "dns"] true
  slot : ∀ i, HasSlot Config.ty [.field sec, .field "dns", .index i] false
  mangled : mangle sec ++ "_DNS" = var

/-- The section of IPv4 addresses. -/
theorem ipv4Section (c : Config) : IpSection c "ipv4" "IPV4_DNS" c.ipv4 where
  walk := Config.walk_ipv4 c
  parse := by decide +kernel
  count := ⟨Codec.string.array.ty, rfl, rfl, rfl⟩
  slot _ := ⟨.string, rfl, rfl, rfl⟩
  mangled := by decide

/-- The section of IPv6 addresses. -/
theorem ipv6Section (c : Config) : IpSection c "ipv6" "IPV6_DNS" c.ipv6 where
  walk := Config.walk_ipv6 c
  parse := by decide +kernel
  count := ⟨Codec.string.array.ty, rfl, rfl, rfl⟩
  slot _ := ⟨.string, rfl, rfl, rfl⟩
  mangled := by decide

section

variable {D : Display} {c : Config}

/-- A field is there if something is found at its key. -/
theorem zfHasPresent_eq {key sec k : String} (h : IsField key sec k) :
    zfHasPresent D c key = (walkSegments [.field sec, .field k] c.view).isSome := by
  obtain ⟨path, hparse, hsegments⟩ := Option.map_eq_some_iff.mp h
  rw [← hsegments, ← KeyPath.lookup]
  simp only [zfHasPresent, hparse, getKey]
  cases path.lookup c <;> simp

/-- What is captured of a field, or of its default. -/
theorem captured_eq {key sec k : String} (h : IsField key sec k) (default : Option String) :
    captured D c key default =
      String.ofList (capture ((((walkSegments [.field sec, .field k] c.view).map
        (printed D)).or default).getD "").toList) := by
  obtain ⟨path, hparse, hsegments⟩ := Option.map_eq_some_iff.mp h
  rw [← hsegments, ← KeyPath.lookup]
  simp only [captured, hparse, getKey]
  cases path.lookup c <;> cases default <;> simp

/-- A text is printed as it is. -/
theorem printed_text (o : Option String) :
    ((o.map Value.string).bind fun v => (walkSegments [] v).map (printed D)) = o := by
  cases o <;> rfl

/-- A number is printed in digits. -/
theorem printed_number (o : Option UInt8) :
    ((o.map fun n => Value.integer n.toNat).bind fun v => (walkSegments [] v).map (printed D)) =
      o.map fun n => toString n.toNat := by
  cases o <;> rfl

/-! ## words -/

/-- What is known of a character of a word. -/
theorem IsWord.char {s : String} (h : IsWord s) {ch : Char} (hch : ch ∈ s.toList) :
    isIfs ch = false ∧ ch ≠ '\\' ∧ ch ≠ Char.ofNat 0 := by
  simpa [isWordChar, and_assoc] using List.all_eq_true.mp h.2 ch hch

theorem IsWord.nul {s : String} (h : IsWord s) : Char.ofNat 0 ∉ s.toList :=
  fun hmem => (h.char hmem).2.2 rfl

theorem IsWord.toList_ne_nil {s : String} (h : IsWord s) : s.toList ≠ [] := by
  simpa using h.1

/-- A word is one in the file. -/
theorem IsWord.word {s : String} (h : IsWord s) : Ifup.IsWord s.toList :=
  ⟨h.toList_ne_nil, fun _ hch => (h.char hch).1⟩

/-- A word is captured as it is. -/
theorem IsWord.captured {s : String} (h : IsWord s) :
    String.ofList (capture s.toList) = s := by
  have hclean : s.toList.filter (· ≠ Char.ofNat 0) = s.toList := clean_of_not_mem h.nul
  have hlast : s.toList.reverse.dropWhile (· = '\n') = s.toList.reverse := by
    rw [List.dropWhile_eq_self_iff]
    intro hlen hnewline
    have hifs := (h.char (List.mem_reverse.mp (List.getElem_mem hlen))).1
    rw [of_decide_eq_true hnewline] at hifs
    cases hifs
  rw [capture, hclean, hlast, List.reverse_reverse, String.ofList_toList]

/-- Digits are a word. -/
theorem isWord_digits (n : Nat) : IsWord (toString n) := by
  refine ⟨toString_ne_empty n, List.all_eq_true.mpr fun ch hch => ?_⟩
  have hname := List.all_eq_true.mp (all_isNameChar_digits n) ch hch
  by_contra hnot
  simp only [isWordChar, isIfs, Bool.and_eq_true, Bool.not_eq_true', Bool.or_eq_false_iff,
    decide_eq_true_eq, decide_eq_false_iff_not] at hnot
  have hcases : ch = ' ' ∨ ch = '\t' ∨ ch = '\n' ∨ ch = '\\' ∨ ch = Char.ofNat 0 := by tauto
  rcases hcases with rfl | rfl | rfl | rfl | rfl <;> revert hname <;> decide

/-- A text or its default is a word. -/
theorem isWord_getD {o : Option String} {default : String} (h : ∀ s, o = some s → IsWord s)
    (hdefault : IsWord default) : IsWord (o.getD default) := by
  cases o with
  | none => exact hdefault
  | some s => exact h s rfl

/-! ## name servers -/

/-- A loop over indices is one over the list. -/
theorem foldlM_range {α β : Type} {F : β → Nat → Option β} {G : β → α → β} {l : List α}
    (h : ∀ b (i : Nat) x, l[i]? = some x → F b i = some (G b x)) (b : β) :
    (List.range l.length).foldlM F b = some (l.foldl G b) := by
  induction l using List.reverseRecOn with
  | nil => simp
  | append_singleton l x ih =>
      have hinit := ih fun b i y hy =>
        h b i y (by rw [List.getElem?_append_left (List.getElem?_eq_some_iff.mp hy).1, hy])
      have hlast := h (l.foldl G b) l.length x (by simp)
      simp [List.range_succ, List.foldlM_append, hinit, hlast]

/-- Name servers with blanks between them. -/
theorem toList_addServers {ws : List String} {text : String} (h : text ≠ "") :
    (ws.foldl addServer text).toList = [' '].intercalate (text.toList :: ws.map String.toList) := by
  induction ws generalizing text with
  | nil => simp
  | cons w ws ih =>
      have hadd : addServer text w = text ++ " " ++ w := if_neg h
      have hne : text ++ " " ++ w ≠ "" := by simp
      rw [List.foldl_cons, hadd, ih hne]
      cases ws <;> simp [List.intercalate_cons_of_ne_nil]

/-- The loop puts blanks between the servers. -/
theorem toList_servers {ws : List String} (h : ∀ w ∈ ws, IsWord w) :
    (ws.foldl addServer "").toList = [' '].intercalate (ws.map String.toList) := by
  cases ws with
  | nil => rfl
  | cons w ws =>
      have hfirst : addServer "" w = w := if_pos rfl
      rw [List.foldl_cons, hfirst, toList_addServers (h w List.mem_cons_self).1, List.map_cons]

end

namespace IpSection

variable {D : Display} {c : Config} {sec var : String} {configured : Option IpConfig} {i : IpConfig}
  {vars : Env}

/-- A field of the section. -/
theorem walk_field (h : IpSection c sec var (some i)) (k : String) :
    walkSegments [.field sec, .field k] c.view =
      walkSegments [.field k] (IpConfig.codec.ser i) := by
  rw [h.walk, Option.map_some, Option.bind_some]

/-- The variable of the count. -/
theorem count_eq (h : IpSection c sec var configured) :
    varName [.field sec, .field "dns"] true = var ++ "_COUNT" := by
  have hname : varName [.field sec, .field "dns"] true =
      mangle sec ++ "_" ++ (mangle "dns" ++ "_" ++ "COUNT") := rfl
  have hdns : mangle "dns" = "DNS" := by decide
  rw [hname, hdns, ← h.mangled]
  apply String.toList_inj.mp
  simp

/-- The variable of a name server. -/
theorem server_eq (h : IpSection c sec var configured) (j : Nat) :
    varName [.field sec, .field "dns", .index j] false = var ++ "_" ++ toString j := by
  have hname : varName [.field sec, .field "dns", .index j] false =
      mangle sec ++ "_" ++ (mangle "dns" ++ "_" ++ toString j) := rfl
  have hdns : mangle "dns" = "DNS" := by decide
  rw [hname, hdns, ← h.mangled]
  apply String.toList_inj.mp
  simp

/-- The name servers, as they are walked. -/
theorem walk_dns (i : IpConfig) (tail : List Segment) :
    walkSegments (.field "dns" :: tail) (IpConfig.codec.ser i) =
      (if i.dns.isEmpty then none else some (Codec.string.array.ser i.dns)).bind
        (walkSegments tail) := by
  rw [IpConfig.walk_field]
  simp

/-- The loop over the servers of a section. -/
theorem nameservers_eq (h : IpSection c sec var (some i)) (hsees : Sees D c sec vars)
    (hne : i.dns ≠ []) (hwords : ∀ s ∈ i.dns, IsWord s) :
    nameservers var vars = some (i.dns.foldl addServer "") := by
  have hbelow : ∀ tail, textAt D (.field sec :: tail) c = textIn D tail (IpConfig.codec.ser i) :=
    fun tail => textIn_of_walk (h.walk tail)
  have hlen : i.dns.length ≠ 0 := by simpa using hne
  have hcount : valueOf vars (var ++ "_COUNT") = some (toString i.dns.length) := by
    rw [← h.count_eq, hsees _ _ h.count rfl, hbelow, textIn_count D (walk_dns i), if_neg hlen]
  rw [nameservers, hcount, Option.bind_eq_bind, Option.bind_some]
  have hnumber : number (toString i.dns.length) = i.dns.length := number_repr _
  rw [hnumber]
  refine foldlM_range ?_ ""
  intro text j s hs
  have hserver : valueOf vars (var ++ "_" ++ toString j) = some s := by
    rw [← h.server_eq, hsees _ _ (h.slot j) rfl, hbelow, textIn_element D (walk_dns i), hs,
      Option.bind_some, Codec.string, textIn_string,
      dropNul_of_not_mem (hwords s (List.mem_of_getElem? hs)).nul]
  rw [hserver]
  rfl

/-- **The name servers of a section.** -/
theorem servers_spec (h : IpSection c sec var (some i)) (hvars : Plain D c vars)
    (hwords : ∀ s ∈ i.dns, IsWord s) (default : String) :
    ∃ text vars', servers D c sec var default vars = some (text, vars') ∧ Plain D c vars' ∧
      text.toList = [' '].intercalate ((dnsOr default i).map String.toList) := by
  have hpresent : zfHasPresent D c (sec ++ ".dns") = !i.dns.isEmpty := by
    rw [zfHasPresent_eq h.parse, h.walk_field, walk_dns]
    cases i.dns <;> rfl
  by_cases hne : i.dns = []
  · refine ⟨default, vars, ?_, hvars, ?_⟩
    · simp [servers, hpresent, hne]
    · simp [dnsOr, hne]
  · refine ⟨i.dns.foldl addServer "", vars ++ sectionVars D c sec, ?_, hvars.eval sec, ?_⟩
    · simp only [servers, hpresent, evalOutput_listOutput, Option.bind_eq_bind, Option.bind_some,
        h.nameservers_eq (hvars.sees sec) hne hwords]
      simp [hne]
    · rw [toList_servers hwords]
      simp [dnsOr, hne]

/-- Whether there is an address. -/
theorem present_eq (h : IpSection c sec var configured) {key : String}
    (hkey : IsField key sec "address") :
    zfHasPresent D c key = (configured.bind (·.address)).isSome := by
  rw [zfHasPresent_eq hkey, h.walk]
  cases configured with
  | none => rfl
  | some i =>
      rw [Option.map_some, Option.bind_some, IpConfig.walk_field, if_pos rfl, Option.bind_some]
      cases i.address <;> rfl

/-- What is asked for, if it is a word. -/
theorem zfGet_eq (h : IpSection c sec var (some i)) {key k : String} (hkey : IsField key sec k)
    {s : String}
    (hfield : (walkSegments [.field k] (IpConfig.codec.ser i)).map (printed D) = some s)
    (hword : IsWord s) : zfGet D c key = s := by
  rw [zfGet, captured_eq hkey, h.walk_field, hfield, Option.some_or, Option.getD_some,
    hword.captured]

/-- What is asked for with a default. -/
theorem zfGetDefault_eq (h : IpSection c sec var (some i)) {key k : String}
    (hkey : IsField key sec k) {o : Option String}
    (hfield : (walkSegments [.field k] (IpConfig.codec.ser i)).map (printed D) = o)
    (hword : ∀ s, o = some s → IsWord s) {default : String} (hdefault : IsWord default) :
    zfGetDefault D c key default = o.getD default := by
  have hor : (o.or (some default)).getD "" = o.getD default := by cases o <;> rfl
  rw [zfGetDefault, captured_eq hkey, h.walk_field, hfield, hor,
    (isWord_getD hword hdefault).captured]

end IpSection

/-! ## sections -/

section

variable {D : Display} {c : Config} {vars : Env}

/-- Lines behind others. -/
def below (ls : List (List Char)) : List Char := ls.flatMap ('\n' :: ·)

/-- Without an address there is no interface. -/
theorem ifaceOf_of_none {configured : Option IpConfig}
    (h : configured.bind (·.address) = none) (iface : IpConfig → String → Ifup.Iface) :
    ifaceOf iface configured = [] := by
  cases configured with
  | none => rfl
  | some i =>
      have haddress : i.address = none := h
      simp [ifaceOf, haddress]

/-- The script sees an IPv4 address where there is one. -/
theorem present_ipv4 : zfHasPresent D c "ipv4.address" = (c.ipv4.bind (·.address)).isSome :=
  (ipv4Section c).present_eq (by decide +kernel)

/-- And an IPv6 address. -/
theorem present_ipv6 : zfHasPresent D c "ipv6.address" = (c.ipv6.bind (·.address)).isSome :=
  (ipv6Section c).present_eq (by decide +kernel)

/-- A piece is the line of an option. -/
def IsOption (piece : String × String) (o : Ifup.Word × List Ifup.Word) : Prop :=
  piece.1.toList = '\n' :: ("    ".toList ++ (o.1 ++ [' '])) ∧
    piece.2.toList = [' '].intercalate o.2

/-- A line of the script is a line of the file. -/
theorem isOption_line {label key text : String} {values : List String}
    (hlabel : label.toList = '\n' :: ("    ".toList ++ (key.toList ++ [' '])))
    (htext : text.toList = [' '].intercalate (values.map String.toList)) :
    IsOption (label, text) (option key values) := ⟨hlabel, htext⟩

/-- So it is with a single value. -/
theorem isOption_value {label key : String}
    (h : label.toList = '\n' :: ("    ".toList ++ (key.toList ++ [' ']))) (value : String) :
    IsOption (label, value) (option key [value]) := isOption_line h (by simp)

/-- Pieces that are options make a description. -/
theorem block_eq {head : String} {pieces : List (String × String)} {name family method : Ifup.Word}
    {options : List (Ifup.Word × List Ifup.Word)}
    (hhead : head.toList = '\n' :: [' '].intercalate ["iface".toList, name, family, method])
    (h : List.Forall₂ IsOption pieces options) :
    block head pieces = below (Ifup.Iface.lines ⟨name, family, method, options⟩) := by
  have hpieces : ∀ {ps os}, List.Forall₂ IsOption ps os →
      (ps.flatMap fun p => p.1.toList ++ p.2.toList) = below (os.map Ifup.optionLine) := by
    intro ps os hps
    induction hps with
    | nil => rfl
    | cons hp _ ih =>
        rw [List.flatMap_cons, ih, hp.1, hp.2, below, below, List.map_cons, List.flatMap_cons,
          Ifup.optionLine]
        simp
  rw [block, hhead, hpieces h, Ifup.Iface.lines, below, below, List.flatMap_cons]

/-- What the script adds for IPv4. -/
theorem ipv4Block_eq {i : IpConfig} {address nameservers : String}
    (h : nameservers.toList = [' '].intercalate ((dnsOr "127.0.0.1" i).map String.toList)) :
    ipv4Block address (i.broadcast.getD address) (i.subnet.getD "255.255.255.255")
      (i.gateway.getD "172.31.1.1") nameservers = below (ipv4Iface i address).lines :=
  block_eq (by decide) <|
    .cons (isOption_value (by decide) _) <| .cons (isOption_value (by decide) _) <|
    .cons (isOption_value (by decide) _) <| .cons (isOption_value (by decide) _) <|
    .cons (isOption_value (by decide) _) <| .cons (isOption_line (by decide) h) .nil

/-- What it adds for IPv6. -/
theorem ipv6Block_eq {i : IpConfig} {address nameservers : String}
    (h : nameservers.toList = [' '].intercalate ((dnsOr "::1" i).map String.toList)) :
    ipv6Block address ((i.netmask.map fun n => toString n.toNat).getD "64")
      (i.gateway.getD "fe80::1") nameservers = below (ipv6Iface i address).lines :=
  block_eq (by decide) <|
    .cons (isOption_value (by decide) _) <| .cons (isOption_value (by decide) _) <|
    .cons (isOption_line (by decide) h) <| .cons (isOption_value (by decide) _) .nil

/-- **The section `ipv4`.** -/
theorem ipv4Text_spec (hvars : Plain D c vars)
    (hwords : ∀ i ∈ c.ipv4, ∀ s ∈ texts i, IsWord s) :
    ∃ text vars', ipv4Text D c vars = some (text, vars') ∧ Plain D c vars' ∧
      text = below ((ifaceOf ipv4Iface c.ipv4).flatMap Ifup.Iface.lines) := by
  cases haddress : c.ipv4.bind (·.address) with
  | none =>
      refine ⟨[], vars, ?_, hvars, ?_⟩
      · simp [ipv4Text, present_ipv4, haddress]
      · simp [ifaceOf_of_none haddress, below]
  | some address =>
      obtain ⟨i, hi, hsome⟩ := Option.bind_eq_some_iff.mp haddress
      have h : IpSection c "ipv4" "IPV4_DNS" (some i) := hi ▸ ipv4Section c
      have hword := hwords i hi
      simp only [texts, List.mem_append, Option.mem_toList, or_imp, forall_and] at hword
      obtain ⟨⟨⟨⟨haddr, hbroad⟩, hsub⟩, hgate⟩, hdns⟩ := hword
      have hget : zfGet D c "ipv4.address" = address :=
        h.zfGet_eq (k := "address") (by decide +kernel)
          (by simpa [IpConfig.walk_field, printed_text] using hsome) (haddr _ hsome)
      have hbroadcast : zfGetDefault D c "ipv4.broadcast" address = i.broadcast.getD address :=
        h.zfGetDefault_eq (k := "broadcast") (by decide +kernel)
          (by simp [IpConfig.walk_field, printed_text]) hbroad (haddr _ hsome)
      have hsubnet : zfGetDefault D c "ipv4.subnet" "255.255.255.255" =
          i.subnet.getD "255.255.255.255" :=
        h.zfGetDefault_eq (k := "subnet") (by decide +kernel)
          (by simp [IpConfig.walk_field, printed_text]) hsub (by decide)
      have hgateway : zfGetDefault D c "ipv4.gateway" "172.31.1.1" =
          i.gateway.getD "172.31.1.1" :=
        h.zfGetDefault_eq (k := "gateway") (by decide +kernel)
          (by simp [IpConfig.walk_field, printed_text]) hgate (by decide)
      obtain ⟨nameservers, vars', hservers, hvars', htext⟩ :=
        h.servers_spec hvars hdns "127.0.0.1"
      refine ⟨below (ipv4Iface i address).lines, vars', ?_, hvars', ?_⟩
      · simp only [ipv4Text, present_ipv4, haddress, Option.isSome_some, if_true, hget, hbroadcast,
          hsubnet, hgateway, hservers, Option.bind_eq_bind, Option.bind_some, ipv4Block_eq htext]
        rfl
      · simp [hi, ifaceOf, hsome]

/-- **The section `ipv6`.** -/
theorem ipv6Text_spec (hvars : Plain D c vars)
    (hwords : ∀ i ∈ c.ipv6, ∀ s ∈ texts i, IsWord s) :
    ∃ text vars', ipv6Text D c vars = some (text, vars') ∧
      text = below ((ifaceOf ipv6Iface c.ipv6).flatMap Ifup.Iface.lines) := by
  cases haddress : c.ipv6.bind (·.address) with
  | none =>
      refine ⟨[], vars, ?_, ?_⟩
      · simp [ipv6Text, present_ipv6, haddress]
      · simp [ifaceOf_of_none haddress, below]
  | some address =>
      obtain ⟨i, hi, hsome⟩ := Option.bind_eq_some_iff.mp haddress
      have h : IpSection c "ipv6" "IPV6_DNS" (some i) := hi ▸ ipv6Section c
      have hword := hwords i hi
      simp only [texts, List.mem_append, Option.mem_toList, or_imp, forall_and] at hword
      obtain ⟨⟨⟨⟨haddr, -⟩, -⟩, hgate⟩, hdns⟩ := hword
      have hget : zfGet D c "ipv6.address" = address :=
        h.zfGet_eq (k := "address") (by decide +kernel)
          (by simpa [IpConfig.walk_field, printed_text] using hsome) (haddr _ hsome)
      have hnetmask : zfGetDefault D c "ipv6.netmask" "64" =
          (i.netmask.map fun n => toString n.toNat).getD "64" := by
        refine h.zfGetDefault_eq (k := "netmask") (by decide +kernel)
          (by simp [IpConfig.walk_field, printed_number]) ?_ (by decide)
        intro s hs
        obtain ⟨n, -, rfl⟩ := Option.map_eq_some_iff.mp hs
        exact isWord_digits n.toNat
      have hgateway : zfGetDefault D c "ipv6.gateway" "fe80::1" = i.gateway.getD "fe80::1" :=
        h.zfGetDefault_eq (k := "gateway") (by decide +kernel)
          (by simp [IpConfig.walk_field, printed_text]) hgate (by decide)
      obtain ⟨nameservers, vars', hservers, -, htext⟩ := h.servers_spec hvars hdns "::1"
      refine ⟨below (ipv6Iface i address).lines, vars', ?_, ?_⟩
      · simp only [ipv6Text, present_ipv6, haddress, Option.isSome_some, if_true, hget, hnetmask,
          hgateway, hservers, Option.bind_eq_bind, Option.bind_some, ipv6Block_eq htext]
        rfl
      · simp [hi, ifaceOf, hsome]

end

/-! ## the file -/

/-- Values of an option. -/
def Valued (o : Ifup.Word × List Ifup.Word) : Prop :=
  o.2 ≠ [] ∧ ∀ w ∈ o.2, Ifup.IsWord w ∧ '\\' ∉ w

/-- A description that is read back, and that `echo -e` prints as it is. -/
structure Clean (i : Ifup.Iface) : Prop where
  proper : i.Proper
  backslash : ∀ w ∈ i.rows.flatten, '\\' ∉ w

/-- An interface whose parts are words is clean. -/
theorem clean_of_valued {i : Ifup.Iface}
    (hhead : ∀ w ∈ [i.name, i.family, i.method], Ifup.IsWord w ∧ '\\' ∉ w)
    (hkeys : ∀ k ∈ i.options.map Prod.fst, Ifup.IsKey k ∧ '\\' ∉ k)
    (hnodup : (i.options.map Prod.fst).Nodup) (hvalues : ∀ o ∈ i.options, Valued o) : Clean i where
  proper :=
    { head := fun w hw => (hhead w hw).1
      keys := fun o ho => (hkeys o.1 (List.mem_map_of_mem ho)).1
      values := fun o ho => ⟨(hvalues o ho).1, fun w hw => ((hvalues o ho).2 w hw).1⟩
      nodup := hnodup }
  backslash := by
    rw [Ifup.Iface.rows, List.flatten_cons, List.forall_mem_append]
    refine ⟨List.forall_mem_cons.mpr ⟨by decide, fun w hw => (hhead w hw).2⟩, ?_⟩
    intro w hw
    obtain ⟨row, hrow, hw⟩ := List.mem_flatten.mp hw
    obtain ⟨o, ho, rfl⟩ := List.mem_map.mp hrow
    rcases List.mem_cons.mp hw with rfl | hw
    · exact (hkeys o.1 (List.mem_map_of_mem ho)).2
    · exact ((hvalues o ho).2 w hw).2

/-- An option with words has values. -/
theorem valued_option (key : String) {values : List String} (hne : values ≠ [])
    (h : ∀ s ∈ values, IsWord s) : Valued (option key values) := by
  refine ⟨by simpa [option] using hne, fun w hw => ?_⟩
  obtain ⟨s, hs, rfl⟩ := List.mem_map.mp hw
  exact ⟨(h s hs).word, fun hmem => ((h s hs).char hmem).2.1 rfl⟩

theorem valued_value (key : String) {s : String} (h : IsWord s) : Valued (option key [s]) :=
  valued_option key (List.cons_ne_nil _ _) (by simpa using h)

/-- The name servers, or their default, are values. -/
theorem valued_dns (key : String) {i : IpConfig} (h : ∀ s ∈ i.dns, IsWord s) {default : String}
    (hdefault : IsWord default) : Valued (option key (dnsOr default i)) := by
  by_cases hne : i.dns = []
  · simpa [dnsOr, hne] using valued_value key hdefault
  · simpa [dnsOr, hne] using valued_option key hne h

theorem clean_loopback : Clean loopback :=
  clean_of_valued (by decide) (by decide) (by decide) (by simp [loopback])

/-- The interface for IPv4 is clean. -/
theorem clean_ipv4 {i : IpConfig} (h : ∀ s ∈ texts i, IsWord s) {address : String}
    (haddress : i.address = some address) : Clean (ipv4Iface i address) := by
  simp only [texts, List.mem_append, Option.mem_toList, or_imp, forall_and] at h
  obtain ⟨⟨⟨⟨haddr, hbroadcast⟩, hsubnet⟩, hgateway⟩, hdns⟩ := h
  have hword := haddr _ haddress
  have hgate : IsWord (i.gateway.getD "172.31.1.1") :=
    isWord_getD hgateway (by decide)
  have hkeys : (ipv4Iface i address).options.map Prod.fst = ["address".toList,
    "broadcast".toList, "netmask".toList, "gateway".toList, "pointopoint".toList,
    "dns-nameservers".toList] := rfl
  have hhead : ∀ w ∈ ["eth0".toList, "inet".toList, "static".toList],
      Ifup.IsWord w ∧ '\\' ∉ w := by decide
  refine clean_of_valued hhead (hkeys ▸ by decide) (hkeys ▸ by decide) ?_
  simp only [ipv4Iface, List.forall_mem_cons]
  exact ⟨valued_value _ hword, valued_value _ (isWord_getD hbroadcast hword),
    valued_value _ (isWord_getD hsubnet (by decide)), valued_value _ hgate,
    valued_value _ hgate, valued_dns _ hdns (by decide), by simp⟩

/-- The interface for IPv6 is clean. -/
theorem clean_ipv6 {i : IpConfig} (h : ∀ s ∈ texts i, IsWord s) {address : String}
    (haddress : i.address = some address) : Clean (ipv6Iface i address) := by
  simp only [texts, List.mem_append, Option.mem_toList, or_imp, forall_and] at h
  obtain ⟨⟨⟨⟨haddr, -⟩, -⟩, hgateway⟩, hdns⟩ := h
  have hnetmask : ∀ s, (i.netmask.map fun n => toString n.toNat) = some s → IsWord s := by
    intro s hs
    obtain ⟨n, -, rfl⟩ := Option.map_eq_some_iff.mp hs
    exact isWord_digits n.toNat
  have hkeys : (ipv6Iface i address).options.map Prod.fst = ["address".toList,
    "netmask".toList, "dns-nameservers".toList, "gateway".toList] := rfl
  have hhead : ∀ w ∈ ["eth0".toList, "inet6".toList, "static".toList],
      Ifup.IsWord w ∧ '\\' ∉ w := by decide
  refine clean_of_valued hhead (hkeys ▸ by decide) (hkeys ▸ by decide) ?_
  simp only [ipv6Iface, List.forall_mem_cons]
  exact ⟨valued_value _ (haddr _ haddress),
    valued_value _ (isWord_getD hnetmask (by decide)),
    valued_dns _ hdns (by decide),
    valued_value _ (isWord_getD hgateway (by decide)), by simp⟩

theorem clean_ifaceOf {configured : Option IpConfig} {iface : IpConfig → String → Ifup.Iface}
    (hclean : ∀ {i}, (∀ s ∈ texts i, IsWord s) → ∀ {address}, i.address = some address →
      Clean (iface i address)) (h : ∀ i ∈ configured, ∀ s ∈ texts i, IsWord s) :
    ∀ i ∈ ifaceOf iface configured, Clean i := by
  intro x hx
  obtain ⟨i, hi, hx⟩ := Option.bind_eq_some_iff.mp (Option.mem_toList.mp hx)
  obtain ⟨address, haddress, rfl⟩ := Option.map_eq_some_iff.mp hx
  exact hclean (h i hi) haddress

/-- A line, and lines below it. -/
theorem unlines_below (l : List Char) (ls : List (List Char)) :
    l ++ below ls ++ ['\n'] = unlines (l :: ls) := by
  induction ls generalizing l with
  | nil => simp [below]
  | cons l' ls ih =>
      rw [unlines_cons, ← ih l', below, List.flatMap_cons, ← below]
      simp

/-- The lines of the file behind the first. -/
def fileLines (c : Config) : List (List Char) :=
  loopback.lines ++ [[]] ++
    (if (c.ipv4.bind (·.address)).isSome then ["auto eth0".toList] else []) ++
    (ifaceOf ipv4Iface c.ipv4 ++ ifaceOf ipv6Iface c.ipv6).flatMap Ifup.Iface.lines

/-- All interfaces are clean. -/
theorem clean_ifaces {c : Config}
    (h : ∀ i ∈ c.ipv4.toList ++ c.ipv6.toList, ∀ s ∈ texts i, IsWord s) :
    ∀ i ∈ ifaceOf ipv4Iface c.ipv4 ++ ifaceOf ipv6Iface c.ipv6, Clean i := by
  simp only [List.forall_mem_append, Option.mem_toList] at h
  exact List.forall_mem_append.mpr
    ⟨clean_ifaceOf clean_ipv4 h.1, clean_ifaceOf clean_ipv6 h.2⟩

/-- The lines have no backslash and no newline. -/
theorem not_mem_fileLines {c : Config}
    (h : ∀ i ∈ ifaceOf ipv4Iface c.ipv4 ++ ifaceOf ipv6Iface c.ipv6, Clean i) :
    ∀ l ∈ fileLines c, '\\' ∉ l ∧ '\n' ∉ l := by
  have hlines : ∀ i : Ifup.Iface, Clean i → ∀ l ∈ i.lines, '\\' ∉ l ∧ '\n' ∉ l := by
    intro i hi l hl
    refine ⟨Ifup.Iface.not_mem_lines (by decide) hi.backslash l hl,
      Ifup.Iface.not_mem_lines (by decide) (fun w hw hmem => ?_) l hl⟩
    have hifs := (hi.proper.isWord w hw).2 _ hmem
    cases hifs
  rw [fileLines, List.forall_mem_append, List.forall_mem_append, List.forall_mem_append]
  refine ⟨⟨⟨hlines _ clean_loopback, by decide⟩, ?_⟩, ?_⟩
  · split <;> decide
  · intro l hl
    obtain ⟨i, hi, hl⟩ := List.mem_flatMap.mp hl
    exact hlines i (h i hi) l hl

/-- What is written. -/
theorem interfacesFile_eq (D : Display) {c : Config}
    (h : ∀ i ∈ c.ipv4.toList ++ c.ipv6.toList, ∀ s ∈ texts i, IsWord s) :
    interfacesFile D c = some (unlines ("auto lo".toList :: fileLines c)) := by
  have hclean := not_mem_fileLines (clean_ifaces h)
  simp only [List.forall_mem_append, Option.mem_toList] at h
  obtain ⟨ipv4, vars, hipv4, hvars, rfl⟩ := ipv4Text_spec (D := D) Plain.nil h.1
  obtain ⟨ipv6, vars', hipv6, rfl⟩ := ipv6Text_spec hvars h.2
  have hstart : "auto lo\niface lo inet loopback\n".toList =
      "auto lo".toList ++ below (loopback.lines ++ [[]]) := by decide
  have hauto : (if zfHasPresent D c "ipv4.address" then "\nauto eth0".toList else []) =
      below (if (c.ipv4.bind (·.address)).isSome then ["auto eth0".toList] else []) := by
    rw [present_ipv4]
    split <;> decide
  have htext : "auto lo\niface lo inet loopback\n".toList ++
      (if zfHasPresent D c "ipv4.address" then "\nauto eth0".toList else []) ++
        below ((ifaceOf ipv4Iface c.ipv4).flatMap Ifup.Iface.lines) ++
          below ((ifaceOf ipv6Iface c.ipv6).flatMap Ifup.Iface.lines) =
      "auto lo".toList ++ below (fileLines c) := by
    rw [hstart, hauto, fileLines]
    simp only [below, List.flatMap_append, List.append_assoc]
  have hplain : '\\' ∉ "auto lo".toList ++ below (fileLines c) := by
    rw [List.mem_append, not_or]
    refine ⟨by decide, fun hmem => ?_⟩
    obtain ⟨l, hl, hmem⟩ := List.mem_flatMap.mp hmem
    rcases List.mem_cons.mp hmem with heq | hmem
    · revert heq
      decide
    · exact (hclean l hl).1 hmem
  have hprinted := echoE_of_plain hplain []
  rw [List.append_nil] at hprinted
  have hfile : interfacesFile D c =
      some (echoE .plain ("auto lo".toList ++ below (fileLines c))) := by
    rw [← htext]
    simp only [interfacesFile, hipv4, hipv6, Option.bind_eq_bind, Option.bind_some]
    rfl
  rw [hfile, hprinted, ← unlines_below]
  rfl

/-- The words of its lines. -/
theorem map_words_file {c : Config}
    (h : ∀ i ∈ ifaceOf ipv4Iface c.ipv4 ++ ifaceOf ipv6Iface c.ipv6, Clean i) :
    ("auto lo".toList :: fileLines c).map words =
      (["auto".toList, "lo".toList] :: loopback.rows) ++
        ([] :: if (c.ipv4.bind (·.address)).isSome then [["auto".toList, "eth0".toList]] else []) ++
          (ifaceOf ipv4Iface c.ipv4 ++ ifaceOf ipv6Iface c.ipv6).flatMap Ifup.Iface.rows := by
  have hifaces : ((ifaceOf ipv4Iface c.ipv4 ++ ifaceOf ipv6Iface c.ipv6).flatMap
      Ifup.Iface.lines).map words =
        (ifaceOf ipv4Iface c.ipv4 ++ ifaceOf ipv6Iface c.ipv6).flatMap Ifup.Iface.rows := by
    rw [List.map_flatMap]
    exact List.flatMap_congr fun i hi => (h i hi).proper.map_words
  have hlo : words "auto lo".toList = ["auto".toList, "lo".toList] := by decide
  have hauto : (if (c.ipv4.bind (·.address)).isSome then ["auto eth0".toList] else []).map words =
      if (c.ipv4.bind (·.address)).isSome then [["auto".toList, "eth0".toList]] else [] := by
    split <;> decide
  rw [List.map_cons, hlo, fileLines, List.map_append, List.map_append, List.map_append, hifaces,
    hauto, clean_loopback.proper.map_words, List.map_singleton, words_nil]
  simp only [List.cons_append, List.append_assoc, List.nil_append]

/-- An address, two name servers, and an address in IPv6 without any. -/
def twoStacks : Config where
  machine := none
  console := none
  headless := none
  rescue := none
  hostname := none
  ssh := none
  ipv4 := some ⟨some "10.0.0.2", none, none, none, some "10.0.0.1", ["10.0.0.53", "10.0.1.53"]⟩
  ipv6 := some ⟨some "fd00::2", none, none, some 56, none, []⟩
  wg := []
  wgServer := []
  nbdClient := []
  nbdServer := []
  zfsKey := []
  zfsMount := []
  dockerRegistry := []

end Zebrafish.System.Interfaces
