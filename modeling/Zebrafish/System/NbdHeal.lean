import Zebrafish.Lib.Script

/-!
# Zebrafish.System.NbdHeal

The daemon that keeps NBD-backed pools alive (`etc/nbd-heal/nbd-heal`).

It looks at devices and pools every few seconds; after some bad checks in a row
it attaches devices that are gone, verifies all of them and resumes suspended
pools with `zpool clear`, not too often.  What the commands answer is up to the
world.  `guarded` says what the daemon keeps to in every run, whatever happens:
as long as the clock does not run backwards, and is past 1970, since a
timestamp of 0 stands for "never".
-/

namespace Zebrafish.System.NbdHeal

def interval : Nat := 10

def failThreshold : Nat := 3

def repairBackoff : Nat := 60

def clearCooldown : Int := 300

/-- How long the daemon rests after a repair that ended wedged. -/
def wedgedRest : Int := 600

/-- A configured device: an entry of the arrays `ADDR`, `PORT`, `DEV`, `NAME`
and `TMO`. -/
structure Client where
  addr : String
  port : String
  dev : String
  name : String
  tmo : String
deriving DecidableEq

/-- What `discover` finds. -/
structure Setup where
  clients : List Client
  pools : List String

/-- What `zpool list -o health` shows. -/
inductive Health
  | online | degraded | faulted | offline | removed | unavail | suspended
deriving DecidableEq

inductive DevState
  | missing | attached
deriving DecidableEq

inductive Level
  | info | warn | error | crit
deriving DecidableEq

/-- Where the daemon is.  The marks are not commands of the source: they note
in the history what its loop has come to. -/
inductive Mark
  /-- all devices and pools were looked at -/
  | checked (bad : Bool)
  /-- a repair cycle starts -/
  | repair
  /-- its attach phase is over -/
  | attached
  /-- it ended -/
  | repaired (wedged : Bool)
deriving DecidableEq

/-- The commands of the source. -/
inductive Cmd
  | flock
  | discover
  /-- `cat /sys/block/…/size` -/
  | size (dev : String)
  /-- `dd` of one block, under a timeout -/
  | dd (dev : String)
  /-- `zpool list -H -o health` -/
  | zpoolList (pool : String)
  /-- under a timeout; its exit status is not looked at -/
  | nbdClient (args : List String) (addr port dev : String)
  | zpoolClear (pool : String)
  /-- `date +%s` -/
  | date
  | sleep (seconds : Nat)
  | say (level : Level) (text : String)
  | mark (m : Mark)

/-- What they answer. -/
abbrev Ans : Cmd → Type
  | .flock => Bool
  | .discover => Setup
  | .size _ => Option Nat
  | .dd _ => Bool
  | .zpoolList _ => Option Health
  | .nbdClient .. => Unit
  | .zpoolClear _ => Bool
  | .date => Int
  | .sleep _ => Unit
  | .say .. => Unit
  | .mark _ => Unit

open Script (Event History World Always)

/-- Runs a command. -/
def sh (c : Cmd) : Script Ans (Ans c) := Script.command c

/-! ## probes -/

/-- `say` joins its words by blanks. -/
def say (level : Level) (words : List String) : Script Ans Unit :=
  sh (.say level (" ".intercalate words))

def devSize (dev : String) : Script Ans Nat := do
  let size ← sh (.size dev)
  pure (size.getD 0)

def devState (dev : String) : Script Ans DevState := do
  let size ← devSize dev
  pure (if size = 0 then .missing else .attached)

def probeOnce (dev : String) : Script Ans Bool := sh (.dd dev)

/-- A stalling transport gets one more chance. -/
def probeDev (dev : String) : Script Ans Bool := do
  let ok ← probeOnce dev
  if ok then pure true
  else
    sh (.sleep 10)
    probeOnce dev

/-- The health of a pool, or nothing where the source says `MISSING`. -/
def poolState (pool : String) : Script Ans (Option Health) := sh (.zpoolList pool)

/-! ## repair -/

/-- Waits until the device has a size, for so many seconds. -/
def awaitSize (dev : String) : Nat → Script Ans Bool
  | 0 => pure false
  | n + 1 => do
      let size ← devSize dev
      if size ≠ 0 then pure true
      else
        sh (.sleep 1)
        awaitSize dev n

def attachDev (c : Client) : Script Ans Bool := do
  let args := ["-timeout", c.tmo] ++ (if c.name = "" then [] else ["-N", c.name])
  sh (.nbdClient args c.addr c.port c.dev)
  awaitSize c.dev 30

/-- Attaches a device that is not attached at all. -/
def attachMissing (c : Client) : Script Ans Unit := do
  let state ← devState c.dev
  if state = .missing then
    say .warn [c.dev ++ ": not attached; connecting to " ++ c.addr ++ ":" ++ c.port]
    let ok ← attachDev c
    if ok then say .info [c.dev ++ ": attached"]
    else say .error [c.dev ++ ": could not connect to " ++ c.addr ++ ":" ++ c.port]
  else pure ()

/-- What is known of the devices, and one more of them. -/
structure Transport where
  allAttached : Bool
  allAnswer : Bool

def examine (t : Transport) (c : Client) : Script Ans Transport := do
  let state ← devState c.dev
  if state = .attached then
    let ok ← probeDev c.dev
    if ok then pure t
    else
      say .error [c.dev ++ ": attached but not answering reads"]
      pure { t with allAnswer := false }
  else pure { t with allAttached := false }

/-- What a repair cycle comes to: whether something is wedged, and
`last_clear`. -/
structure Outcome where
  wedged : Bool
  lastClear : Int

def resume (t : Transport) (o : Outcome) (pool : String) : Script Ans Outcome := do
  let state ← poolState pool
  match state with
  | none =>
      say .warn ["pool " ++ pool ++ " is not imported; run '/etc/init.d/S46mounts start' once " ++
        "its device answers"]
      pure o
  | some .suspended =>
      if t.allAttached = false ∨ t.allAnswer = false then
        say .crit ["pool " ++ pool ++ " is suspended and its transport is not answering; ",
          "the device cannot be re-armed in place -- reboot this host"]
        pure { o with wedged := true }
      else
        let now ← sh .date
        if now - o.lastClear < clearCooldown ∧ 0 < o.lastClear then
          say .crit ["pool " ++ pool ++ " suspended again shortly after the last zpool clear; ",
            "the transport is unstable -- not retrying"]
          pure { o with wedged := true }
        else
          say .warn ["pool " ++ pool ++
            " is suspended; transport verified, resuming with zpool clear"]
          let lastClear ← sh .date
          let ok ← sh (.zpoolClear pool)
          if ok then
            sh (.sleep 2)
            let after ← poolState pool
            if after = some .online then
              say .info ["pool " ++ pool ++ ": resumed, state=ONLINE"]
              pure { o with lastClear }
            else
              say .crit ["pool " ++ pool ++ ": zpool clear returned success but state=" ++
                stateName after]
              pure ⟨true, lastClear⟩
          else
            say .crit ["pool " ++ pool ++ ": zpool clear failed"]
            pure ⟨true, lastClear⟩
  | some _ => pure o
where
  stateName : Option Health → String
    | none => "MISSING"
    | some .online => "ONLINE"
    | some .degraded => "DEGRADED"
    | some .faulted => "FAULTED"
    | some .offline => "OFFLINE"
    | some .removed => "REMOVED"
    | some .unavail => "UNAVAIL"
    | some .suspended => "SUSPENDED"

def repair (setup : Setup) (lastClear : Int) : Script Ans Outcome := do
  sh (.mark .repair)
  say .warn ["repair cycle started"]
  setup.clients.foldlM (fun _ c => attachMissing c) ()
  sh (.mark .attached)
  let t ← setup.clients.foldlM examine ⟨true, true⟩
  let o ← setup.pools.foldlM (resume t) ⟨false, lastClear⟩
  sh (.mark (.repaired o.wedged))
  pure o

/-! ## the main loop -/

/-- The variables of the main loop, and `last_clear`. -/
structure Vars where
  failures : Nat
  lastWedged : Int
  lastClear : Int

def checkClient (bad : Bool) (c : Client) : Script Ans Bool := do
  let state ← devState c.dev
  pure (bad || state = .missing)

def checkPool (bad : Bool) (pool : String) : Script Ans Bool := do
  let state ← poolState pool
  pure (bad || state = some .suspended)

/-- The end of a round that found something bad often enough. -/
def act (setup : Setup) (v : Vars) : Script Ans Vars := do
  let o ← repair setup v.lastClear
  if o.wedged then
    let now ← sh .date
    sh (.sleep repairBackoff)
    pure ⟨0, now, o.lastClear⟩
  else
    sh (.sleep repairBackoff)
    pure ⟨0, 0, o.lastClear⟩

def round (v : Vars) : Script Ans Vars := do
  let setup ← sh .discover
  let bad ← setup.clients.foldlM checkClient false
  let bad ← setup.pools.foldlM checkPool bad
  sh (.mark (.checked bad))
  if bad = false then
    sh (.sleep interval)
    pure { v with failures := 0 }
  else
    let v := { v with failures := v.failures + 1 }
    if v.failures < failThreshold then
      sh (.sleep interval)
      pure v
    else if 0 < v.lastWedged then
      let now ← sh .date
      if now - v.lastWedged < wedgedRest then
        sh (.sleep interval)
        pure v
      else act setup v
    else act setup v

def rounds : Nat → Vars → Script Ans Vars
  | 0, v => pure v
  | n + 1, v => do
      let v ← round v
      rounds n v

/-- The daemon, for so many rounds. -/
def main (n : Nat) : Script Ans Unit := do
  let free ← sh .flock
  if free then
    let setup ← sh .discover
    if setup.clients = [] then
      say .info ["no nbd-client configured; nothing to supervise"]
    else
      say .info ["supervising " ++ " ".intercalate (setup.clients.map (·.dev)) ++
        " (interval 10s, timeout " ++ " ".intercalate (setup.clients.map (·.tmo)) ++ ")"]
      let _ ← rounds n ⟨0, 0, 0⟩
      pure ()
  else pure ()

end Zebrafish.System.NbdHeal
