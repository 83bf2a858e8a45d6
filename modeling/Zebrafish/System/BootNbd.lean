import Zebrafish.Lib.Trace
import Zebrafish.System.Discover
import Zebrafish.System.NbdGuard
import Zebrafish.System.Sections

/-!
# Zebrafish.System.BootNbd

How the NBD devices are attached at boot (`init.d/S45nbd`), before the daemon
looks after them.

`service_serves` says what the script does for every configuration, whatever the
commands answer.  `reattaches_as_booted` compares it with the daemon: a device
that the daemon attaches is one the boot has tried to attach, from the same
server, with the same export and timeout.
-/

namespace Zebrafish.System.BootNbd

open Toml Shell ConfigTool
open NbdHeal (Client clientVar)

/-- The commands of the script. -/
inductive Cmd
  /-- `echo`, with its newline if it prints one -/
  | print (text : String)
  /-- `nbd-client`, its output in the log -/
  | nbdClient (args : List String) (addr port dev : String)
  /-- `nbd-client -d` -/
  | detach (dev : String)
  /-- `fdisk -l` -/
  | fdisk (dev : String)
  | sleep (seconds : String)
  /-- `[[ -f "$CONFIG_SERVER" ]]` -/
  | hasConfigServer
  /-- `start-stop-daemon --start … -- -c <command>` -/
  | startServer (command : String)
  /-- `kill -0` of the process in the PID file -/
  | serverAlive
  /-- `start-stop-daemon --stop` -/
  | stopServer

abbrev Ans : Cmd → Type
  | .print _ => Unit
  | .nbdClient .. => Bool
  | .detach _ => Bool
  | .fdisk _ => Bool
  | .sleep _ => Unit
  | .hasConfigServer => Bool
  | .startServer _ => Bool
  | .serverAlive => Bool
  | .stopServer => Bool

open Script (Event History World Each)

/-- Runs a command. -/
def sh (c : Cmd) : Script Ans (Ans c) := Script.command c

def print (text : String) : Script Ans Unit := sh (.print text)

/-- `<command> && echo "OK" || echo "FAIL"`. -/
def okOrFail (ok : Bool) : Script Ans Unit := print (if ok then "OK\n" else "FAIL\n")

/-! ## clients -/

def nbdClient (args : List String) (addr port dev : String) : Script Ans Bool :=
  sh (.nbdClient args addr port dev)

def startClient (defaultExport defaultTimeout : String) (vars : Env) (i : Nat) :
    Script Ans Unit := do
  let address := deref vars (clientVar i "ADDRESS")
  let port := deref vars (clientVar i "PORT")
  let disk := deref vars (clientVar i "DEVICE")
  let exportName := deref vars (clientVar i "EXPORT")
  let timeout := deref vars (clientVar i "TIMEOUT")
  let exportName := if exportName = "" then defaultExport else exportName
  let timeout := if timeout = "" then defaultTimeout else timeout
  let baseArgs := if timeout = "" then [] else ["-timeout", timeout]
  print ("Starting nbd-client for " ++ disk ++ ": ")
  let named ←
    if exportName = "" then pure false
    else nbdClient (["-p"] ++ baseArgs ++ ["-N", exportName]) address port disk
  if named then print "OK\n"
  else
    let anonymous ← nbdClient (["-p"] ++ baseArgs) address port disk
    -- older servers only serve the anonymous export
    if anonymous then print "OK (anonymous export)\n" else print "FAIL\n"

/-- Waits for a disk, for so many attempts. -/
def awaitDisk (disk : String) : Nat → Script Ans Unit
  | 0 => pure ()
  | n + 1 => do
      let available ← sh (.fdisk disk)
      if available then print (disk ++ " is available.\n")
      else
        print ("Waiting for " ++ disk ++ "...\n")
        sh (.sleep "0.5")
        awaitDisk disk n

/-! ## servers -/

def serverVar (i : Nat) (field : String) : String :=
  "NBD_SERVER_" ++ (toString i ++ ("_" ++ field))

def configServer : String := "/etc/nbd-server/config"

/-- What `sh -c` runs; `args` is what `$*` is. -/
def serverCommand (args : String) : String :=
  "exec stdbuf -oL -eL nbd-server " ++ args ++ " >> /logs/system/nbd-server.log 2>&1"

/-- `start_server`. -/
def startServer (args : String) : Script Ans Bool := sh (.startServer (serverCommand args))

/-- Starts the server from its configuration file, if there is one. -/
def startFromConfig : Script Ans Bool := do
  let isFile ← sh .hasConfigServer
  if isFile then
    print ("Starting nbd-server from " ++ configServer ++ ": ")
    let _ ← startServer "-n"
    sh (.sleep "1")
    let alive ← sh .serverAlive
    print (if alive then "OK\n" else "FAIL (falling back to command line)\n")
    pure alive
  else pure false

def startExport (vars : Env) (i : Nat) : Script Ans Unit := do
  let address := deref vars (serverVar i "ADDRESS")
  let disk := deref vars (serverVar i "DEVICE")
  let up ← startFromConfig
  if up then pure ()
  else
    print ("Starting nbd-server on " ++ disk ++ ": ")
    let ok ← startServer ("-n " ++ address ++ " " ++ disk)
    okOrFail ok

/-! ## the script -/

def doStart (D : Display) (c : Config) (defaultExport defaultTimeout : String) (vars : Env) :
    Option (Script Ans Unit) := do
  let (clientCount, vars) ← evalSection D c "nbd-client" "NBD_CLIENT_COUNT" vars
  let (serverCount, vars) ← evalSection D c "nbd-server" "NBD_SERVER_COUNT" vars
  pure do
    (List.range clientCount).foldlM
      (fun _ i => startClient defaultExport defaultTimeout vars i) ()
    (List.range clientCount).foldlM (fun _ i => awaitDisk (deref vars (clientVar i "DEVICE")) 10) ()
    (List.range serverCount).foldlM (fun _ i => startExport vars i) ()

def detach (dev : String) : Script Ans Bool := sh (.detach dev)

def detachClient (vars : Env) (i : Nat) : Script Ans Unit := do
  let disk := deref vars (clientVar i "DEVICE")
  print ("Detaching " ++ disk ++ ": ")
  let ok ← detach disk
  okOrFail ok

/-- `do_stop`, and the variables after it. -/
def doStop (D : Display) (c : Config) (vars : Env) : Option (Script Ans Unit × Env) := do
  let (clientCount, vars) ← evalSection D c "nbd-client" "NBD_CLIENT_COUNT" vars
  let hasServer := Credentials.zfHasPresent D c "nbd-server"
  pure (do
    (List.range clientCount).foldlM (fun _ i => detachClient vars i) ()
    if hasServer then
      print "Stopping nbd-server: "
      let ok ← sh .stopServer
      okOrFail ok
    else pure (), vars)

/-- The script, in a shell with some variables. -/
def service (D : Display) (c : Config) (vars : Env) (verb : Verb) : Option (Script Ans Unit) :=
  let defaultExport := derefOr vars "NBD_CLIENT_DEFAULT_EXPORT" "export"
  let defaultTimeout := derefOr vars "NBD_CLIENT_DEFAULT_TIMEOUT" "180"
  onVerb (doStart D c defaultExport defaultTimeout) (doStop D c) (sh (.sleep "1")) vars verb

/-! ## what it does -/

def said (text : String) : Event Ans := ⟨.print text, ()⟩

/-- An attempt to attach a device. -/
def tried (n : Client) (args : List String) (ok : Bool) : Event Ans :=
  ⟨.nbdClient ("-p" :: args) n.addr n.port n.dev, ok⟩

/-- The options for a device: its timeout, and its export by name. -/
def namedArgs (n : Client) : List String := ["-timeout", n.tmo, "-N", n.name]

/-- The export is asked for by name, and then without a name if that fails. -/
inductive Attaches (n : Client) : List (Event Ans) → Prop
  | byName : Attaches n [said ("Starting nbd-client for " ++ n.dev ++ ": "),
      tried n (namedArgs n) true, said "OK\n"]
  | anonymous : Attaches n [said ("Starting nbd-client for " ++ n.dev ++ ": "),
      tried n (namedArgs n) false, tried n ["-timeout", n.tmo] true,
      said "OK (anonymous export)\n"]
  | fails : Attaches n [said ("Starting nbd-client for " ++ n.dev ++ ": "),
      tried n (namedArgs n) false, tried n ["-timeout", n.tmo] false, said "FAIL\n"]

/-- A disk is looked for at most so often, with a pause after each failure. -/
inductive Awaits (disk : String) : Nat → List (Event Ans) → Prop
  | gaveUp : Awaits disk 0 []
  | available (n : Nat) :
      Awaits disk (n + 1) [⟨.fdisk disk, true⟩, said (disk ++ " is available.\n")]
  | again {n : Nat} {events : List (Event Ans)} (h : Awaits disk n events) :
      Awaits disk (n + 1) (⟨.fdisk disk, false⟩ :: said ("Waiting for " ++ disk ++ "...\n") ::
        ⟨.sleep "0.5", ()⟩ :: events)

/-- What a configuration says of an export. -/
def configuredServer (s : NbdServer) : NbdServer where
  address := dropNul s.address
  device := dropNul s.device

/-- The server is started from the command line. -/
def onCommandLine (s : NbdServer) (ok : Bool) : List (Event Ans) :=
  [said ("Starting nbd-server on " ++ s.device ++ ": "),
    ⟨.startServer (serverCommand ("-n " ++ s.address ++ " " ++ s.device)), ok⟩,
    said (if ok then "OK\n" else "FAIL\n")]

/-- It is started from its file, and where that is not there or the server does
not keep running, from the command line. -/
inductive Exports (s : NbdServer) : List (Event Ans) → Prop
  | fromFile (started : Bool) : Exports s [⟨.hasConfigServer, true⟩,
      said ("Starting nbd-server from " ++ configServer ++ ": "),
      ⟨.startServer (serverCommand "-n"), started⟩, ⟨.sleep "1", ()⟩, ⟨.serverAlive, true⟩,
      said "OK\n"]
  | fallsBack (started ok : Bool) : Exports s ([⟨.hasConfigServer, true⟩,
      said ("Starting nbd-server from " ++ configServer ++ ": "),
      ⟨.startServer (serverCommand "-n"), started⟩, ⟨.sleep "1", ()⟩, ⟨.serverAlive, false⟩,
      said "FAIL (falling back to command line)\n"] ++ onCommandLine s ok)
  | noFile (ok : Bool) : Exports s (⟨.hasConfigServer, false⟩ :: onCommandLine s ok)

/-- All devices are tried before any is waited for, and the servers come last. -/
def Starts (c : Config) (events : List (Event Ans)) : Prop :=
  ∃ attached awaited exported, events = attached ++ (awaited ++ exported) ∧
    Each Attaches (NbdHeal.configured c).clients attached ∧
    Each (fun n => Awaits n.dev 10) (NbdHeal.configured c).clients awaited ∧
    Each (fun s => Exports (configuredServer s)) c.nbdServer exported

def Detaches (n : Client) (events : List (Event Ans)) : Prop :=
  ∃ ok, events = [said ("Detaching " ++ n.dev ++ ": "), ⟨.detach n.dev, ok⟩,
    said (if ok then "OK\n" else "FAIL\n")]

def Stops (c : Config) (events : List (Event Ans)) : Prop :=
  ∃ detached stopped, events = detached ++ stopped ∧
    Each Detaches (NbdHeal.configured c).clients detached ∧
    if c.nbdServer = [] then stopped = []
    else ∃ ok, stopped = [said "Stopping nbd-server: ", ⟨.stopServer, ok⟩,
      said (if ok then "OK\n" else "FAIL\n")]

/-! ## what it reads -/

/-- The section of the clients. -/
theorem nbdClients (c : Config) : ListSection c "nbd-client" NbdClient.codec c.nbdClient where
  parse := by decide +kernel
  slot := ⟨_, rfl, rfl, rfl⟩
  walk := NbdHeal.Config.walk_nbdClient c

/-- The section `nbd-server`, as it is walked. -/
theorem Config.walk_nbdServer (c : Config) (tail : List Segment) :
    walkSegments (.field "nbd-server" :: tail) c.view =
      (if c.nbdServer.isEmpty then none else some (NbdServer.codec.array.ser c.nbdServer)).bind
        (walkSegments tail) := by
  rw [Config.view, Config.codec, walk_struct (by decide +kernel)]
  simp only [Fields.optional, Fields.vec, Fields.cons, Fields.nil, lookup_entry]
  simp

/-- The section of the exports. -/
theorem nbdServers (c : Config) : ListSection c "nbd-server" NbdServer.codec c.nbdServer where
  parse := by decide +kernel
  slot := ⟨_, rfl, rfl, rfl⟩
  walk := Config.walk_nbdServer c

/-- What is written of a server. -/
theorem NbdServer.walk_field (s : NbdServer) (k : String) (tail : List Segment) :
    walkSegments (.field k :: tail) (NbdServer.codec.ser s) =
      (if k = "address" then some (.string s.address)
      else if k = "device" then some (.string s.device)
      else none).bind (walkSegments tail) := by
  rw [NbdServer.codec, walk_struct (by decide +kernel)]
  simp only [Fields.required, Fields.cons, Fields.nil, lookup_entry]
  rfl

section

variable {D : Display} {c : Config} {vars : Env}

/-- A variable of a client has the text of its field. -/
theorem valueOf_client (h : Sees D c "nbd-client" vars) (i : Nat) (k : String)
    (hslot : HasSlot Config.ty [.field "nbd-client", .index i, .field k] false) :
    valueOf vars (clientVar i (mangle k)) =
      textAt D [.field "nbd-client", .index i, .field k] c := by
  rw [NbdHeal.varName_client]
  exact h _ _ hslot rfl

/-- The device of a client. -/
theorem deref_device (h : Sees D c "nbd-client" vars) {i : Nat} {n : NbdClient}
    (hn : c.nbdClient[i]? = some n) :
    deref vars (clientVar i "DEVICE") = (Client.configured n).dev := by
  have hdev := valueOf_client h i "device" ⟨.string, rfl, rfl, rfl⟩
  rw [show mangle "device" = "DEVICE" by decide, NbdHeal.textAt_device, hn] at hdev
  rw [deref, hdev]
  rfl

/-- The address and the device of an export. -/
theorem deref_server (h : Sees D c "nbd-server" vars) {i : Nat} {s : NbdServer}
    (hs : c.nbdServer[i]? = some s) :
    deref vars (serverVar i "ADDRESS") = (configuredServer s).address ∧
      deref vars (serverVar i "DEVICE") = (configuredServer s).device := by
  have hname : ∀ k, serverVar i (mangle k) =
      varName [.field "nbd-server", .index i, .field k] false := by
    intro k
    have hsection : mangle "nbd-server" ++ "_" = "NBD_SERVER_" := by decide
    rw [varName_element, hsection, serverVar]
  have haddr := (nbdServers c).valueOf_element h i (k := "address") ⟨.string, rfl, rfl, rfl⟩
  have hdev := (nbdServers c).valueOf_element h i (k := "device") ⟨.string, rfl, rfl, rfl⟩
  rw [← hname, hs] at haddr hdev
  rw [show mangle "address" = "ADDRESS" by decide] at haddr
  rw [show mangle "device" = "DEVICE" by decide] at hdev
  rw [deref, deref, haddr, hdev]
  simp [textIn_of_walk (NbdServer.walk_field _ _ _), textIn_string, configuredServer]

end

/-! ## its parts -/

section

variable {D : Display} {c : Config} {vars : Env}

/-- A default is taken where a variable is empty. -/
theorem ite_deref (vars : Env) (name default : String) :
    (if deref vars name = "" then default else deref vars name) = derefOr vars name default := by
  cases h : valueOf vars name <;> simp [deref, derefOr, orDefault, h]

/-- With a default there is always a text. -/
theorem orDefault_ne_empty {default : String} (h : default ≠ "") (text : Option String) :
    orDefault default text ≠ "" := by
  cases text with
  | none => exact h
  | some t => by_cases ht : t = "" <;> simp [orDefault, ht, h]

/-- Attaching one device. -/
theorem emits_startClient (h : Sees D c "nbd-client" vars) {i : Nat} {n : NbdClient}
    (hn : c.nbdClient[i]? = some n) :
    (startClient "export" "180" vars i).Emits fun _ => Attaches (Client.configured n) := by
  have haddr := valueOf_client h i "address" ⟨.string, rfl, rfl, rfl⟩
  have hport := valueOf_client h i "port" ⟨.unsigned 16, rfl, rfl, rfl⟩
  have hname := valueOf_client h i "export" ⟨.string, rfl, rfl, rfl⟩
  have htmo := valueOf_client h i "timeout" ⟨.unsigned 16, rfl, rfl, rfl⟩
  rw [show mangle "address" = "ADDRESS" by decide, NbdHeal.textAt_address, hn] at haddr
  rw [show mangle "port" = "PORT" by decide, NbdHeal.textAt_port, hn] at hport
  rw [show mangle "export" = "EXPORT" by decide, NbdHeal.textAt_export, hn] at hname
  rw [show mangle "timeout" = "TIMEOUT" by decide, NbdHeal.textAt_timeout, hn] at htmo
  have hnamed : derefOr vars (clientVar i "EXPORT") "export" ≠ "" :=
    orDefault_ne_empty (by decide) _
  have htimed : derefOr vars (clientVar i "TIMEOUT") "180" ≠ "" :=
    orDefault_ne_empty (by decide) _
  have hclient : Client.configured n =
      ⟨deref vars (clientVar i "ADDRESS"), deref vars (clientVar i "PORT"),
        deref vars (clientVar i "DEVICE"), derefOr vars (clientVar i "EXPORT") "export",
        derefOr vars (clientVar i "TIMEOUT") "180"⟩ := by
    rw [deref_device h hn, deref, deref, derefOr, derefOr, haddr, hport, hname, htmo]
    rfl
  generalize Client.configured n = client at *
  subst hclient
  simp only [startClient, ite_deref, if_neg hnamed, if_neg htimed]
  simp only [nbdClient, print, sh, Script.emits_bind, Script.emits_command]
  rintro - (_ | _)
  · rintro (_ | _)
    · exact fun _ => .fails
    · exact fun _ => .anonymous
  · exact fun _ => .byName

/-- Waiting for one device. -/
theorem emits_awaitDisk (disk : String) (n : Nat) :
    (awaitDisk disk n).Emits fun _ => Awaits disk n := by
  induction n with
  | zero => exact .gaveUp
  | succ n ih =>
      simp only [awaitDisk, print, sh, Script.emits_bind, Script.emits_command]
      rintro (_ | _)
      · exact fun _ _ => ih.mono fun _ _ => .again
      · exact fun _ => .available n

/-- Starting one export. -/
theorem emits_startExport (h : Sees D c "nbd-server" vars) {i : Nat} {s : NbdServer}
    (hs : c.nbdServer[i]? = some s) :
    (startExport vars i).Emits fun _ => Exports (configuredServer s) := by
  obtain ⟨haddr, hdev⟩ := deref_server h hs
  simp only [startExport, haddr, hdev]
  simp only [startFromConfig, startServer, okOrFail, print, sh, Script.emits_bind,
    Script.emits_command]
  rintro (_ | _)
  · exact fun _ ok _ => .noFile ok
  · intro _ started _
    rintro (_ | _)
    · exact fun _ _ ok _ => .fallsBack started ok
    · exact fun _ => .fromFile started

/-- Detaching one device. -/
theorem emits_detachClient (h : Sees D c "nbd-client" vars) {i : Nat} {n : NbdClient}
    (hn : c.nbdClient[i]? = some n) :
    (detachClient vars i).Emits fun _ => Detaches (Client.configured n) := by
  simp only [detachClient, deref_device h hn]
  simp only [detach, okOrFail, print, sh, Script.emits_bind, Script.emits_command]
  exact fun _ ok _ => ⟨ok, rfl⟩

/-- The events of a start. -/
theorem emits_doStart (h : Plain D c vars) :
    ∃ p, doStart D c "export" "180" vars = some p ∧ p.Emits fun _ => Starts c := by
  obtain ⟨vars₁, hread₁, hplain₁, hclients₁, -⟩ :=
    (nbdClients c).evalSection_spec (by decide : _ = "NBD_CLIENT_COUNT") h
  obtain ⟨vars₂, hread₂, -, hservers, hkept⟩ :=
    (nbdServers c).evalSection_spec (by decide : _ = "NBD_SERVER_COUNT") hplain₁
  have hclients := hkept _ hclients₁
  refine ⟨_, by simp only [doStart, hread₁, hread₂, Option.bind_eq_bind, Option.bind_some]; rfl, ?_⟩
  have hattach := Script.emits_forRange (T := fun n => Attaches (Client.configured n))
    fun i n hn => emits_startClient hclients hn
  have hawait := Script.emits_forRange
    (f := fun i => awaitDisk (deref vars₂ (clientVar i "DEVICE")) 10)
    (T := fun n => Awaits (Client.configured n).dev 10) fun i n hn => by
      rw [deref_device hclients hn]
      exact emits_awaitDisk _ _
  have hexport := Script.emits_forRange (T := fun s => Exports (configuredServer s))
    fun i s hs => emits_startExport hservers hs
  simp only [Script.emits_bind]
  refine hattach.mono fun _ attached hattached => hawait.mono fun _ awaited hawaited =>
    hexport.mono fun _ exported hexported => ?_
  exact ⟨attached, awaited, exported, rfl, Script.each_map.mpr hattached,
    Script.each_map.mpr hawaited, hexported⟩

/-- The events of a stop. -/
theorem emits_doStop (h : Plain D c vars) :
    ∃ p vars', doStop D c vars = some (p, vars') ∧ (p.Emits fun _ => Stops c) ∧
      Plain D c vars' := by
  obtain ⟨vars', hread, hplain, hclients, -⟩ :=
    (nbdClients c).evalSection_spec (by decide : _ = "NBD_CLIENT_COUNT") h
  refine ⟨_, vars', by rw [doStop, hread, Option.bind_eq_bind, Option.bind_some]; rfl, ?_, hplain⟩
  have hdetach := Script.emits_forRange (T := fun n => Detaches (Client.configured n))
    fun i n hn => emits_detachClient hclients hn
  have hserver := (nbdServers c).zfHasPresent_iff (D := D)
  rw [Script.emits_bind]
  refine hdetach.mono fun _ detached hdetached => ?_
  by_cases hnone : c.nbdServer = []
  · rw [if_neg (by simpa [hserver] using hnone)]
    exact ⟨detached, [], rfl, Script.each_map.mpr hdetached, by rw [if_pos hnone]⟩
  · rw [if_pos (hserver.mpr hnone)]
    simp only [okOrFail, print, sh, Script.emits_bind, Script.emits_command]
    exact fun _ ok _ => ⟨detached, _, rfl, Script.each_map.mpr hdetached,
      by rw [if_neg hnone]; exact ⟨ok, rfl⟩⟩

end

/-- **The script.**  In a fresh shell, for every configuration and whatever the
commands answer. -/
theorem service_serves (D : Display) (c : Config) (verb : Verb) (w : World Ans) :
    ∃ p events, service D c [] verb = some p ∧ (p.run w []).2 = events.reverse ∧
      Serves (Starts c) (Stops c) (· = [⟨.sleep "1", ()⟩]) verb events := by
  have hpause : (sh (.sleep "1")).Emits fun _ events => events = [⟨.sleep "1", ()⟩] := fun _ => rfl
  exact run_onVerb (fun _ => emits_doStart) (fun _ => emits_doStop) hpause Plain.nil verb w

/-! ## the daemon -/

/-- The daemon attaches devices of a configuration only, as the configuration
says. -/
def Allowed (c : Config) : NbdHeal.Cmd → Prop
  | .nbdClient args addr port dev => ∃ n ∈ (NbdHeal.configured c).clients,
      args = namedArgs n ∧ addr = n.addr ∧ port = n.port ∧ dev = n.dev
  | _ => True

/-- It finds what the configuration says. -/
def Finds (c : Config) : Event NbdHeal.Ans → History NbdHeal.Ans → Prop
  | ⟨.discover, setup⟩, _ => setup = NbdHeal.configured c
  | _, _ => True

section

open NbdHeal (sh say devSize devState probeOnce probeDev poolState awaitSize attachDev
  attachMissing examine resume repair checkClient checkPool act round rounds)

variable {c : Config}

/-- Waiting attaches nothing. -/
theorem only_awaitSize (dev : String) (n : Nat) : (awaitSize dev n).Only (Allowed c) := by
  induction n with
  | zero => trivial
  | succ n ih =>
      refine Script.Only.bind ⟨trivial, fun _ => trivial⟩ fun size => ?_
      split
      · trivial
      · exact ⟨trivial, fun _ => ih⟩

/-- A device is attached as it is configured. -/
theorem only_attachMissing {n : Client} (hn : n ∈ (NbdHeal.configured c).clients) :
    (attachMissing n).Only (Allowed c) := by
  have hname : n.name ≠ "" := by
    obtain ⟨client, -, rfl⟩ := List.mem_map.mp hn
    exact orDefault_ne_empty (by decide) _
  have hattach : (attachDev n).Only (Allowed c) :=
    ⟨⟨n, hn, by simp [hname, namedArgs], rfl, rfl, rfl⟩, fun _ => only_awaitSize n.dev 30⟩
  refine Script.Only.bind ⟨trivial, fun _ => trivial⟩ fun state => ?_
  split
  · refine ⟨trivial, fun _ => hattach.bind fun ok => ?_⟩
    split <;> exact ⟨trivial, fun _ => trivial⟩
  · trivial

/-- Probing attaches nothing. -/
theorem only_examine (t : NbdHeal.Transport) (n : Client) : (examine t n).Only (Allowed c) := by
  have hprobe : (probeDev n.dev).Only (Allowed c) := by
    refine .command_bind trivial fun ok => ?_
    split
    · trivial
    · exact .command_bind trivial fun _ => ⟨trivial, fun _ => trivial⟩
  refine Script.Only.bind ⟨trivial, fun _ => trivial⟩ fun state => ?_
  split
  · refine hprobe.bind fun ok => ?_
    split
    · trivial
    · exact .command_bind trivial fun _ => trivial
  · trivial

/-- Resuming a pool attaches nothing. -/
theorem only_resume (t : NbdHeal.Transport) (o : NbdHeal.Outcome) (pool : String) :
    (resume t o pool).Only (Allowed c) := by
  refine .command_bind trivial fun state => ?_
  split
  · exact .command_bind trivial fun _ => trivial
  · split
    · exact .command_bind trivial fun _ => trivial
    · refine .command_bind trivial fun now => ?_
      split
      · exact .command_bind trivial fun _ => trivial
      · refine .command_bind trivial fun _ => .command_bind trivial fun _ =>
          .command_bind trivial fun ok => ?_
        split
        · refine .command_bind trivial fun _ => .command_bind trivial fun after => ?_
          split <;> exact .command_bind trivial fun _ => trivial
        · exact .command_bind trivial fun _ => trivial
  · trivial

/-- A repair attaches what is configured. -/
theorem only_act (v : NbdHeal.Vars) : (act (NbdHeal.configured c) v).Only (Allowed c) := by
  have hrepair : (repair (NbdHeal.configured c) v.lastClear).Only (Allowed c) := by
    refine .command_bind trivial fun _ => .command_bind trivial fun _ => ?_
    refine Script.Only.bind (.foldlM (fun n hn _ => only_attachMissing hn) _) fun _ => ?_
    refine .command_bind trivial fun _ => ?_
    refine Script.Only.bind (.foldlM (fun n _ t => only_examine t n) _) fun t => ?_
    refine Script.Only.bind (.foldlM (fun pool _ o => only_resume t o pool) _) fun o => ?_
    exact .command_bind trivial fun _ => trivial
  refine hrepair.bind fun o => ?_
  split
  · exact .command_bind trivial fun _ => .command_bind trivial fun _ => trivial
  · exact .command_bind trivial fun _ => trivial

/-- What a round does after it has found the devices. -/
theorem only_round (v : NbdHeal.Vars) : ∃ rest : NbdHeal.Setup → Script NbdHeal.Ans NbdHeal.Vars,
    round v = NbdHeal.sh NbdHeal.Cmd.discover >>= rest ∧
      (rest (NbdHeal.configured c)).Only (Allowed c) := by
  refine ⟨_, rfl, ?_⟩
  refine Script.Only.bind (.foldlM (fun n _ bad => ?_) _) fun bad => ?_
  · exact Script.Only.bind (.command_bind trivial fun _ => trivial) fun _ => trivial
  refine Script.Only.bind (.foldlM (fun pool _ bad => ?_) _) fun bad => ?_
  · exact .command_bind trivial fun _ => trivial
  refine .command_bind trivial fun _ => ?_
  split
  · exact .command_bind trivial fun _ => trivial
  · dsimp only
    split
    · exact .command_bind trivial fun _ => trivial
    · split
      · refine .command_bind trivial fun now => ?_
        split
        · exact .command_bind trivial fun _ => trivial
        · exact only_act _
      · exact only_act _

/-- So does the daemon, round after round. -/
theorem wp_rounds (v : NbdHeal.Vars) (n : Nat) (h : History NbdHeal.Ans) :
    Script.wp (Finds c) (fun e _ => Allowed c e.1) (rounds n v) (fun _ _ => True) h := by
  induction n generalizing v h with
  | zero => trivial
  | succ n ih =>
      obtain ⟨rest, hround, hrest⟩ := only_round (c := c) v
      rw [rounds, hround, Script.wp_bind, Script.wp_bind, NbdHeal.sh, Script.wp_command]
      rintro setup rfl
      refine ⟨trivial, ?_⟩
      have hquiet : Script.wp (Finds c) (fun e _ => Allowed c e.1) (rest (NbdHeal.configured c))
          (fun _ _ => True) (⟨.discover, NbdHeal.configured c⟩ :: h) :=
        Script.wp_of_only (I := fun _ => True) (fun _ _ he _ _ => ⟨he, trivial⟩) hrest trivial
      exact Script.wp_mono hquiet fun v h _ => ih v h

/-- The daemon, from its start. -/
theorem wp_main (n : Nat) :
    Script.wp (Finds c) (fun e _ => Allowed c e.1) (NbdHeal.main n) (fun _ _ => True) [] := by
  simp only [NbdHeal.main, NbdHeal.sh, Script.wp_bind, Script.wp_command]
  refine fun free _ => ⟨trivial, ?_⟩
  split
  · simp only [NbdHeal.say, NbdHeal.sh, Script.wp_bind, Script.wp_command]
    rintro setup rfl
    refine ⟨trivial, ?_⟩
    split
    · exact fun _ _ => ⟨trivial, trivial⟩
    · simp only [Script.wp_bind, Script.wp_command]
      exact fun _ _ => ⟨trivial, Script.wp_mono (wp_rounds _ n _) fun _ _ _ => trivial⟩
  · trivial

end

/-- What a call of `discover` finds after others, while the configuration stays
as it is. -/
def Reads (D : Display) (c : Config) (setup : NbdHeal.Setup) : Prop :=
  ∃ n, (NbdHeal.discovers D (List.replicate (n + 1) c) []).bind List.getLast? = some setup

/-- With one configuration, nothing is left of others. -/
theorem fresh_of_same {c : Config} {earlier : List Config} (hsame : ∀ c' ∈ earlier, c' = c) :
    NbdHeal.Fresh earlier c := by
  have hnone : ∀ {α : Type} (f : Config → Option α), f c = none →
      NbdHeal.lastSet earlier f = none :=
    fun f hf => NbdHeal.lastSet_eq_none.mpr fun c' hc' => by rw [hsame c' hc', hf]
  refine ⟨fun h c' hc' => hsame c' hc' ▸ h, fun h c' hc' => hsame c' hc' ▸ h,
    fun i n hn hexport e he => ?_, fun i n hn htimeout t ht => ?_⟩
  · rw [hnone _ (by rw [hn, Option.bind_some, hexport])] at he
    cases he
  · rw [hnone _ (by rw [hn, Option.bind_some, htimeout])] at ht
    cases ht

/-- What the daemon reads is what is configured. -/
theorem reads_iff {D : Display} {c : Config} {setup : NbdHeal.Setup} :
    Reads D c setup ↔ setup = NbdHeal.configured c := by
  have hfound : ∀ n, NbdHeal.discovers D (List.replicate n c) [] =
      some (List.replicate n (NbdHeal.configured c)) := by
    intro n
    have hlog := (NbdHeal.discovers_log D (List.replicate n c) []).mpr fun pre c' post heq => by
      have hall : ∀ d ∈ pre ++ c' :: post, d = c := fun d hd =>
        List.eq_of_mem_replicate (heq ▸ hd)
      rw [hall c' (by simp)]
      exact fresh_of_same fun d hd => hall d (by simpa using Or.inl hd)
    rwa [List.map_replicate] at hlog
  have hlast : ∀ n, (NbdHeal.discovers D (List.replicate (n + 1) c) []).bind List.getLast? =
      some (NbdHeal.configured c) := by
    intro n
    rw [hfound, Option.bind_some, List.replicate_succ', List.getLast?_concat]
  constructor
  · rintro ⟨n, hn⟩
    exact Option.some.inj (hn.symm.trans (hlast n))
  · rintro rfl
    exact ⟨0, hlast 0⟩

/-- Each attachment starts by name. -/
theorem Attaches.exists_named {n : Client} {events : List (Event Ans)} (h : Attaches n events) :
    ∃ ok, tried n (namedArgs n) ok ∈ events := by
  cases h with
  | byName => exact ⟨true, by simp⟩
  | anonymous => exact ⟨false, by simp⟩
  | fails => exact ⟨false, by simp⟩

/-- **The daemon attaches what the boot has tried to attach.**  While the
configuration stays as it is, whatever the commands answer, and for however long
the daemon runs: its `nbd-client` has the server, device, export and timeout of
one at boot, which has `-p` as well. -/
theorem reattaches_as_booted (D : Display) (c : Config) {boot : Script Ans Unit}
    (hboot : service D c [] .start = some boot) (w : World Ans) (w' : World NbdHeal.Ans) (n : Nat)
    (hreads : ∀ setup, ⟨.discover, setup⟩ ∈ NbdHeal.trace w' n → Reads D c setup)
    {args : List String} {addr port dev : String}
    (hattach : ⟨.nbdClient args addr port dev, ()⟩ ∈ NbdHeal.trace w' n) :
    ∃ ok, ⟨.nbdClient ("-p" :: args) addr port dev, ok⟩ ∈ (boot.run w []).2 := by
  have hfinds : Script.Always (Finds c) (NbdHeal.trace w' n) := by
    intro e past hin
    have hmem : e ∈ NbdHeal.trace w' n := hin.subset List.mem_cons_self
    obtain ⟨cmd, r⟩ := e
    cases cmd with
    | discover => exact reads_iff.mp (hreads r hmem)
    | _ => trivial
  obtain ⟨later, past, hsplit⟩ := List.append_of_mem hattach
  obtain ⟨client, hclient, rfl, rfl, rfl, rfl⟩ :=
    (Script.run_of_wp w' (wp_main n) hfinds Script.Always.nil).1 _ past ⟨later, hsplit.symm⟩
  obtain ⟨p, hp, hemits⟩ := emits_doStart (D := D) (c := c) .nil
  obtain rfl := Option.some.inj (hp.symm.trans hboot)
  obtain ⟨events, hrun, attached, awaited, exported, rfl, hattached, -, -⟩ :=
    Script.run_of_emits w hemits []
  obtain ⟨part, hpart, hin⟩ := hattached.exists_part hclient
  obtain ⟨ok, hok⟩ := hpart.exists_named
  refine ⟨ok, ?_⟩
  rw [hrun]
  have hmem := hin.subset hok
  simp only [tried] at hmem
  simp [hmem]

/-- At boot the server is not there, and the device is never seen. -/
def serverDown : World Ans
  | _, .print _ => ()
  | _, .nbdClient .. => false
  | _, .detach _ => false
  | _, .fdisk _ => false
  | _, .sleep _ => ()
  | _, .hasConfigServer => false
  | _, .startServer _ => false
  | _, .serverAlive => false
  | _, .stopServer => false

/-- Nor is it later. -/
def deviceGone (c : Config) : World NbdHeal.Ans
  | _, .flock => true
  | _, .discover => NbdHeal.configured c
  | _, .size _ => none
  | _, .dd _ => false
  | _, .zpoolList _ => none
  | _, .nbdClient .. => ()
  | _, .zpoolClear _ => false
  | h, .date => NbdHeal.ticking h
  | _, .sleep _ => ()
  | _, .say .. => ()
  | _, .mark _ => ()

/-- The arguments of an `nbd-client` of the daemon. -/
def attachment : Event NbdHeal.Ans → Option (List String × String × String × String)
  | ⟨.nbdClient args addr port dev, _⟩ => some (args, addr, port, dev)
  | _ => none

theorem reattaches_as_booted_down : ∃ boot ok,
    service noDisplay NbdHeal.oneClient [] .start = some boot ∧
    ⟨.nbdClient ["-p", "-timeout", "180", "-N", "export"] "10.0.0.1" "10809" "/dev/nbd0", ok⟩ ∈
      (boot.run serverDown []).2 := by
  have hcalls : (NbdHeal.trace (deviceGone NbdHeal.oneClient) 3).filterMap attachment =
      [(["-timeout", "180", "-N", "export"], "10.0.0.1", "10809", "/dev/nbd0")] := by
    decide +kernel
  obtain ⟨⟨cmd, r⟩, he, hcall⟩ := List.mem_filterMap.mp
    (hcalls ▸ List.mem_singleton_self (α := List String × String × String × String) _)
  have hfinds : Script.Always (Finds NbdHeal.oneClient)
      (NbdHeal.trace (deviceGone NbdHeal.oneClient) 3) :=
    Script.always_run (fun cmd h => by cases cmd <;> trivial) _ Script.Always.nil
  have hreads : ∀ setup, ⟨.discover, setup⟩ ∈ NbdHeal.trace (deviceGone NbdHeal.oneClient) 3 →
      Reads noDisplay NbdHeal.oneClient setup := by
    intro setup hsetup
    obtain ⟨later, past, hsplit⟩ := List.append_of_mem hsetup
    exact reads_iff.mpr (hfinds _ past ⟨later, hsplit.symm⟩)
  obtain ⟨boot, hboot, -⟩ := emits_doStart (D := noDisplay) (c := NbdHeal.oneClient) .nil
  cases cmd with
  | nbdClient args addr port dev =>
      cases hcall
      obtain ⟨ok, hok⟩ := reattaches_as_booted noDisplay NbdHeal.oneClient hboot serverDown
        (deviceGone NbdHeal.oneClient) 3 hreads he
      exact ⟨boot, ok, hboot, hok⟩
  | _ => cases hcall

end Zebrafish.System.BootNbd
