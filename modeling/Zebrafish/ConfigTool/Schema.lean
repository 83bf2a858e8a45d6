import Zebrafish.Toml.Serde

/-!
# Zebrafish.ConfigTool.Schema

The Zebrafish configuration (`schema.rs`): one struct per section, and for each
its codec, the fields in the order of their declaration and under their TOML
keys.
-/

namespace Zebrafish.ConfigTool

open Toml Codec Fields

/-- `[machine]` — only present in the EFI-resident `zebrafish.toml`. -/
structure Machine where
  id : String

structure Console where
  keymap : Option String
  font : Option String

/-- A boolean flag. -/
structure Flag where
  enabled : Bool

structure Hostname where
  name : String

structure Ssh where
  port : Option UInt16
  keys : List String

/-- Shared struct for `[ipv4]` and `[ipv6]`. -/
structure IpConfig where
  address : Option String
  broadcast : Option String
  subnet : Option String
  netmask : Option UInt8
  gateway : Option String
  dns : List String

structure WireGuardPeer where
  publicKey : String
  endpoint : Option String
  allowedIps : List String
  persistentKeepalive : Option UInt16

structure WireGuardInterface where
  name : Option String
  privateKey : Option String
  address : Option String
  listenPort : Option UInt16
  peers : List WireGuardPeer

structure NbdClient where
  address : String
  port : UInt16
  device : String
  exportName : Option String
  timeout : Option UInt16

structure NbdServer where
  address : String
  device : String

structure ZfsKey where
  dataset : String
  key : String

structure ZfsMount where
  name : String

structure DockerRegistry where
  hostname : String
  username : String
  password : String

/-- Top-level configuration object. -/
structure Config where
  machine : Option Machine
  console : Option Console
  headless : Option Flag
  rescue : Option Flag
  hostname : Option Hostname
  ssh : Option Ssh
  ipv4 : Option IpConfig
  ipv6 : Option IpConfig
  wg : List WireGuardInterface
  wgServer : List WireGuardInterface
  nbdClient : List NbdClient
  nbdServer : List NbdServer
  zfsKey : List ZfsKey
  zfsMount : List ZfsMount
  dockerRegistry : List DockerRegistry

/-! ## codecs -/

def Machine.codec : Codec Machine :=
  struct (required "id" string <| nil) (fun f => ⟨f.1⟩) (fun m => (m.id, ())) fun _ => rfl

def Console.codec : Codec Console :=
  struct (optional "keymap" string <| optional "font" string <| nil)
    (fun f => ⟨f.1, f.2.1⟩) (fun c => (c.keymap, c.font, ())) fun _ => rfl

def Flag.codec : Codec Flag :=
  struct (default "enabled" false boolean <| nil) (fun f => ⟨f.1⟩) (fun g => (g.enabled, ()))
    fun _ => rfl

def Hostname.codec : Codec Hostname :=
  struct (required "name" string <| nil) (fun f => ⟨f.1⟩) (fun h => (h.name, ())) fun _ => rfl

def Ssh.codec : Codec Ssh :=
  struct (optional "port" u16 <| vec "keys" string <| nil) (fun f => ⟨f.1, f.2.1⟩)
    (fun s => (s.port, s.keys, ())) fun _ => rfl

def IpConfig.codec : Codec IpConfig :=
  struct
    (optional "address" string <|
      optional "broadcast" string <|
      optional "subnet" string <|
      optional "netmask" u8 <|
      optional "gateway" string <|
      vec "dns" string <|
      nil)
    (fun f => ⟨f.1, f.2.1, f.2.2.1, f.2.2.2.1, f.2.2.2.2.1, f.2.2.2.2.2.1⟩)
    (fun c => (c.address, c.broadcast, c.subnet, c.netmask, c.gateway, c.dns, ())) fun _ => rfl

def WireGuardPeer.codec : Codec WireGuardPeer :=
  struct
    (required "public_key" string <|
      optional "endpoint" string <|
      vec "allowed_ips" string <|
      optional "persistent_keepalive" u16 <|
      nil)
    (fun f => ⟨f.1, f.2.1, f.2.2.1, f.2.2.2.1⟩)
    (fun p => (p.publicKey, p.endpoint, p.allowedIps, p.persistentKeepalive, ())) fun _ => rfl

def WireGuardInterface.codec : Codec WireGuardInterface :=
  struct
    (optional "name" string <|
      optional "private_key" string <|
      optional "address" string <|
      optional "listen_port" u16 <|
      vec "peers" WireGuardPeer.codec <|
      nil)
    (fun f => ⟨f.1, f.2.1, f.2.2.1, f.2.2.2.1, f.2.2.2.2.1⟩)
    (fun w => (w.name, w.privateKey, w.address, w.listenPort, w.peers, ())) fun _ => rfl

def NbdClient.codec : Codec NbdClient :=
  struct
    (required "address" string <|
      required "port" u16 <|
      required "device" string <|
      optional "export" string <|
      optional "timeout" u16 <|
      nil)
    (fun f => ⟨f.1, f.2.1, f.2.2.1, f.2.2.2.1, f.2.2.2.2.1⟩)
    (fun n => (n.address, n.port, n.device, n.exportName, n.timeout, ())) fun _ => rfl

def NbdServer.codec : Codec NbdServer :=
  struct (required "address" string <| required "device" string <| nil) (fun f => ⟨f.1, f.2.1⟩)
    (fun n => (n.address, n.device, ())) fun _ => rfl

def ZfsKey.codec : Codec ZfsKey :=
  struct (required "dataset" string <| required "key" string <| nil) (fun f => ⟨f.1, f.2.1⟩)
    (fun z => (z.dataset, z.key, ())) fun _ => rfl

def ZfsMount.codec : Codec ZfsMount :=
  struct (required "name" string <| nil) (fun f => ⟨f.1⟩) (fun z => (z.name, ())) fun _ => rfl

def DockerRegistry.codec : Codec DockerRegistry :=
  struct
    (required "hostname" string <| required "username" string <| required "password" string <| nil)
    (fun f => ⟨f.1, f.2.1, f.2.2.1⟩) (fun d => (d.hostname, d.username, d.password, ()))
    fun _ => rfl

def Config.codec : Codec Config :=
  struct
    (optional "machine" Machine.codec <|
      optional "console" Console.codec <|
      optional "headless" Flag.codec <|
      optional "rescue" Flag.codec <|
      optional "hostname" Hostname.codec <|
      optional "ssh" Ssh.codec <|
      optional "ipv4" IpConfig.codec <|
      optional "ipv6" IpConfig.codec <|
      vec "wg" WireGuardInterface.codec <|
      vec "wg-server" WireGuardInterface.codec <|
      vec "nbd-client" NbdClient.codec <|
      vec "nbd-server" NbdServer.codec <|
      vec "zfs-key" ZfsKey.codec <|
      vec "zfs-mount" ZfsMount.codec <|
      vec "docker-registry" DockerRegistry.codec <|
      nil)
    (fun ⟨machine, console, headless, rescue, hostname, ssh, ipv4, ipv6, wg, wgServer, nbdClient,
        nbdServer, zfsKey, zfsMount, dockerRegistry, _⟩ =>
      ⟨machine, console, headless, rescue, hostname, ssh, ipv4, ipv6, wg, wgServer, nbdClient,
        nbdServer, zfsKey, zfsMount, dockerRegistry⟩)
    (fun c => (c.machine, c.console, c.headless, c.rescue, c.hostname, c.ssh, c.ipv4, c.ipv6, c.wg,
      c.wgServer, c.nbdClient, c.nbdServer, c.zfsKey, c.zfsMount, c.dockerRegistry, ()))
    fun _ => rfl

/-- `Config::from_toml`, of what a TOML reader made of the text. -/
def Config.fromToml (v : Value) : Option Config := Config.codec.de v

/-- `toml::Value::try_from(&cfg)`. -/
def Config.view (c : Config) : Value := Config.codec.ser c

/-- The type of a whole configuration. -/
def Config.ty : Ty := Config.codec.ty

/-- The types of the sections. -/
def sectionTys : List (String × Presence × Ty) :=
  match Config.ty with
  | .table fields => fields
  | _ => []

/-- The type of a configuration has the sections as its fields. -/
theorem Config.ty_eq : Config.ty = .table sectionTys := rfl

/-- Reading a value and looking at it is normalising it. -/
theorem Config.view_fromToml (v : Value) : (Config.fromToml v).map Config.view = norm Config.ty v :=
  Config.codec.norm_eq v

/-- The view of a configuration has its type. -/
theorem Config.shaped_view (c : Config) : Shaped Config.ty c.view := Config.codec.shaped c

end Zebrafish.ConfigTool
