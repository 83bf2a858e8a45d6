import Zebrafish.Lib.Echo
import Zebrafish.Lib.Filter
import Zebrafish.System.Sections

/-!
# Zebrafish.System.AuthorizedKeys

How the SSH keys of a configuration get into `authorized_keys`
(`init.d/S47ssh`).

The old file is removed and the keys are appended one by one, so a command that
fails leaves some of them.  `keys_installed` says what the file holds then, and
that without a key nothing is done at all, not even to the old file: the script
asks for the number of keys with `set -u`, and there is none.
-/

namespace Zebrafish.System.AuthorizedKeys

open Toml Shell ConfigTool

/-- The commands of the script. -/
inductive Cmd
  | print (text : String)
  /-- `rm -f` -/
  | rm (file : String)
  /-- `mkdir -p` -/
  | mkdirP (dir : String)
  /-- `>>` -/
  | append (file : String) (text : List Char)
  /-- `chown -R` -/
  | chown (user dir : String)

abbrev Ans : Cmd → Type
  | .print _ => Unit
  | .rm _ => Bool
  | .mkdirP _ => Bool
  | .append .. => Bool
  | .chown .. => Bool

open Script (Event World)

/-- Runs a command. -/
def sh (c : Cmd) : Script Ans (Ans c) := Script.command c

/-- How the script ends: `set -u` ends it where a variable is not set. -/
inductive Outcome
  | finished
  | exited (code : Nat)
  | unset
deriving DecidableEq

/-! ## the script -/

def user : String := "signalizer"

def sshFolder : String := "/home/signalizer/.ssh"

def authorizedKeys : String := sshFolder ++ "/authorized_keys"

def keyVar (i : Nat) : String := "SSH_KEYS_" ++ toString i

/-- `echo -e "${!key_var}"`.  A key may be one more option. -/
def keyText (key : String) : List Char :=
  if isEchoOption key.toList then (if 'n' ∈ key.toList then [] else ['\n'])
  else echoE .plain key.toList

/-- The loop over the keys, and how it ends the script, if it does. -/
def appendKeys (vars : Env) : List Nat → Script Ans (Option Outcome)
  | [] => pure none
  | i :: is =>
      match valueOf vars (keyVar i) with
      | none => pure (some .unset)
      | some key => do
          let ok ← sh (.append authorizedKeys (keyText key))
          if ok then appendKeys vars is else pure (some (.exited 3))

def finish : Script Ans Outcome := do
  let _ ← sh (.mkdirP "/logs/system")
  sh (.print "OK\n")
  pure .finished

/-- What is done where there are keys. -/
def install (vars : Env) (count : String) : Script Ans Outcome := do
  sh (.print ("Installing " ++ count ++ " SSH key(s): "))
  let _ ← sh (.rm authorizedKeys)
  let made ← sh (.mkdirP sshFolder)
  if made then do
    let ended ← appendKeys vars (List.range (number count))
    match ended with
    | some outcome => pure outcome
    | none => do
        let owned ← sh (.chown user sshFolder)
        if owned then do
          sh (.print "OK\n")
          finish
        else pure (.exited 4)
  else pure (.exited 2)

/-- The script, in a fresh shell.  It does not look at its argument. -/
def installKeys (D : Display) (c : Config) : Option (Script Ans Outcome) := do
  let vars ← evalOutput [] (listOutput D c "ssh")
  match valueOf vars "SSH_KEYS_COUNT" with
  | none => pure (pure .unset)
  | some count =>
      if count ≠ "" ∧ 0 < number count then pure (install vars count) else pure finish

/-! ## the file -/

/-- The file after an event; a command that fails leaves it as it is. -/
def after (file : Option (List Char)) : Event Ans → Option (List Char)
  | ⟨.rm f, ok⟩ => if f = authorizedKeys && ok then none else file
  | ⟨.append f text, ok⟩ =>
      if f = authorizedKeys && ok then some (file.getD [] ++ text) else file
  | _ => file

def contents (old : Option (List Char)) (events : List (Event Ans)) : Option (List Char) :=
  events.foldl after old

/-- Whether the old file is removed. -/
def removed (events : List (Event Ans)) : Bool :=
  events.any fun
    | ⟨.rm f, ok⟩ => f = authorizedKeys && ok
    | _ => false

def keysOf (c : Config) : List String := (c.ssh.elim [] Ssh.keys).map dropNul

/-- The first `n` keys are in the file, behind what was not removed. -/
def Appended (keys : List String) (n : Nat) (events : List (Event Ans)) : Prop :=
  ∀ old, ((contents old events).getD []) =
    (if removed events then [] else old.getD []) ++ (keys.take n).flatMap keyText

/-! ## what is read -/

/-- The section `ssh`, as it is walked. -/
theorem Config.walk_ssh (c : Config) (tail : List Segment) :
    walkSegments (.field "ssh" :: tail) c.view =
      (c.ssh.map Ssh.codec.ser).bind (walkSegments tail) := by
  rw [Config.view, Config.codec, walk_struct (by decide +kernel)]
  simp only [Fields.optional, Fields.vec, Fields.cons, Fields.nil, lookup_entry]
  simp

/-- The keys in it. -/
theorem Ssh.walk_keys (s : Ssh) (tail : List Segment) :
    walkSegments (.field "keys" :: tail) (Ssh.codec.ser s) =
      (if s.keys.isEmpty then none else some (Codec.string.array.ser s.keys)).bind
        (walkSegments tail) := by
  rw [Ssh.codec, walk_struct (by decide +kernel)]
  simp only [Fields.optional, Fields.vec, Fields.cons, Fields.nil, lookup_entry]
  simp

section

variable {D : Display} {c : Config} {vars : Env}

/-- The count is set just if there are keys. -/
theorem valueOf_count (h : Sees D c "ssh" vars) :
    valueOf vars "SSH_KEYS_COUNT" =
      if keysOf c = [] then none else some (toString (keysOf c).length) := by
  have hname : varName [.field "ssh", .field "keys"] true = "SSH_KEYS_COUNT" := by decide
  have hslot : HasSlot Config.ty [.field "ssh", .field "keys"] true :=
    ⟨Codec.string.array.ty, rfl, rfl, rfl⟩
  rw [← hname, h _ _ hslot rfl, textAt, keysOf, textIn_of_walk (Config.walk_ssh c _)]
  cases c.ssh with
  | none => rfl
  | some s => simp [textIn_count D (Ssh.walk_keys s)]

/-- Each key has its variable. -/
theorem valueOf_key (h : Sees D c "ssh" vars) (i : Nat) :
    valueOf vars (keyVar i) = (keysOf c)[i]? := by
  have hname : varName [.field "ssh", .field "keys", .index i] false = keyVar i := by
    have hparts : varName [.field "ssh", .field "keys", .index i] false =
        mangle "ssh" ++ "_" ++ (mangle "keys" ++ "_" ++ toString i) := rfl
    have hssh : mangle "ssh" = "SSH" := by decide
    have hkeys : mangle "keys" = "KEYS" := by decide
    rw [hparts, hssh, hkeys, keyVar]
    apply String.toList_inj.mp
    simp
  have hslot : HasSlot Config.ty [.field "ssh", .field "keys", .index i] false :=
    ⟨.string, rfl, rfl, rfl⟩
  rw [← hname, h _ _ hslot rfl, textAt, keysOf, textIn_of_walk (Config.walk_ssh c _)]
  cases c.ssh with
  | none => rfl
  | some s =>
      rw [Option.map_some, Option.bind_some, textIn_element D (Ssh.walk_keys s), Option.elim_some,
        List.getElem?_map]
      cases s.keys[i]? <;> simp [Codec.string, textIn_string]

end

/-! ## what is done -/

/-- The file after events and others. -/
theorem contents_append (old : Option (List Char)) (events later : List (Event Ans)) :
    contents old (events ++ later) = contents (contents old events) later := List.foldl_append

/-- Whether it was removed by events and others. -/
theorem removed_append (events later : List (Event Ans)) :
    removed (events ++ later) = (removed events || removed later) := List.any_append

/-- The loop: the keys go behind what is there. -/
theorem emits_appendKeys {vars : Env} {is : List Nat} {keys : List String}
    (h : List.Forall₂ (fun i key => valueOf vars (keyVar i) = some key) is keys) :
    (appendKeys vars is).Emits fun ended events =>
      removed events = false ∧ ∃ n ≤ keys.length,
        (∀ file, (contents file events).getD [] =
          file.getD [] ++ (keys.take n).flatMap keyText) ∧
        (ended = some (.exited 3) ∨ ended = none ∧ n = keys.length) := by
  induction h with
  | nil => exact ⟨rfl, 0, le_rfl, fun _ => by simp [contents], .inr ⟨rfl, rfl⟩⟩
  | @cons i key is keys hkey _ ih =>
      rw [appendKeys, hkey]
      intro ok
      cases ok with
      | false => exact ⟨rfl, 0, Nat.zero_le _, fun _ => by simp [contents, after], .inl rfl⟩
      | true =>
          refine ih.mono fun ended events hevents => ?_
          obtain ⟨hremoved, n, hn, hfile, hended⟩ := hevents
          refine ⟨hremoved, n + 1, by simpa using hn, fun file => ?_, ?_⟩
          · have hafter : contents file (⟨.append authorizedKeys (keyText key), true⟩ :: events) =
                contents (some (file.getD [] ++ keyText key)) events := by
              simp [contents, after]
            rw [hafter, hfile]
            simp
          · obtain hexited | ⟨hnone, rfl⟩ := hended
            · exact .inl hexited
            · exact .inr ⟨hnone, rfl⟩

/-- Events that remove the file or leave it alone. -/
def Clearing (events : List (Event Ans)) : Prop :=
  ∀ file, contents file events = if removed events then none else file

/-- Events that leave the file alone. -/
def Aside (events : List (Event Ans)) : Prop :=
  removed events = false ∧ ∀ file, contents file events = file

/-- The first keys are appended in the loop, whatever stands around it. -/
theorem appended_parts {keys : List String} {n : Nat} {first : List (Event Ans)}
    (loop last : List (Event Ans)) (hfirst : Clearing first) (hremoved : removed loop = false)
    (hloop : ∀ file, (contents file loop).getD [] =
      file.getD [] ++ (keys.take n).flatMap keyText) (hlast : Aside last) :
    Appended keys n (first ++ (loop ++ last)) := by
  intro old
  rw [contents_append, contents_append, hlast.2, hloop, hfirst, removed_append, removed_append,
    hremoved, hlast.1, Bool.or_false, Bool.or_false]
  split <;> rfl

/-- What a run comes to where there are keys. -/
def Installs (keys : List String) (outcome : Outcome) (events : List (Event Ans)) : Prop :=
  outcome ≠ .unset ∧ ∃ n ≤ keys.length, Appended keys n events ∧
    (outcome = .finished → n = keys.length)

/-- The script, from the keys that are set. -/
theorem emits_install {vars : Env} {keys : List String} {count : String}
    (h : List.Forall₂ (fun i key => valueOf vars (keyVar i) = some key)
      (List.range (number count)) keys) :
    (install vars count).Emits (Installs keys) := by
  intro said removedOld made
  have hfirst : Clearing [⟨.print ("Installing " ++ count ++ " SSH key(s): "), said⟩,
      ⟨.rm authorizedKeys, removedOld⟩, ⟨.mkdirP sshFolder, made⟩] := by
    intro old
    cases removedOld <;> rfl
  cases made with
  | false =>
      refine ⟨by simp, 0, Nat.zero_le _, ?_, by simp⟩
      exact appended_parts [] [] hfirst rfl (fun _ => by simp [contents]) ⟨rfl, fun _ => rfl⟩
  | true =>
      change Script.Emits (appendKeys vars _ >>= _) _
      rw [Script.emits_bind]
      refine (emits_appendKeys h).mono fun ended events hevents => ?_
      obtain ⟨hremoved, n, hn, hloop, hended⟩ := hevents
      obtain rfl | ⟨rfl, rfl⟩ := hended
      · exact ⟨by simp, n, hn,
          appended_parts events [] hfirst hremoved hloop ⟨rfl, fun _ => rfl⟩, by simp⟩
      · intro owned
        cases owned with
        | false =>
            exact ⟨by simp, _, hn,
              appended_parts events _ hfirst hremoved hloop ⟨rfl, fun _ => rfl⟩, by simp⟩
        | true =>
            exact fun _ _ _ => ⟨by simp, _, hn,
              appended_parts events _ hfirst hremoved hloop ⟨rfl, fun _ => rfl⟩, fun _ => rfl⟩

/-- The script, in a fresh shell. -/
theorem emits_installKeys (D : Display) (c : Config) :
    ∃ p, installKeys D c = some p ∧ p.Emits fun outcome events =>
      if keysOf c = [] then outcome = .unset ∧ events = []
      else Installs (keysOf c) outcome events := by
  have hsees := (Plain.nil (D := D) (c := c)).sees "ssh"
  have hcount := valueOf_count hsees
  rw [installKeys, evalOutput_listOutput, Option.bind_eq_bind, Option.bind_some]
  by_cases hnone : keysOf c = []
  · rw [if_pos hnone] at hcount
    rw [hcount]
    exact ⟨_, rfl, by simp [hnone]⟩
  · rw [if_neg hnone] at hcount
    have hnumber : number (toString (keysOf c).length) = (keysOf c).length := number_repr _
    have hset : toString (keysOf c).length ≠ "" ∧ 0 < number (toString (keysOf c).length) :=
      ⟨toString_ne_empty _, by rw [hnumber]; exact List.length_pos_iff.mpr hnone⟩
    rw [hcount]
    refine ⟨_, if_pos hset, ?_⟩
    simp only [if_neg hnone]
    refine emits_install ?_
    rw [hnumber, List.forall₂_iff_get]
    refine ⟨by simp, fun i hi hi' => ?_⟩
    rw [valueOf_key hsees]
    simp

/-! ## what is in the file -/

/-- A key that is a line of the file as it is. -/
structure IsKey (key : String) : Prop where
  plain : '\\' ∉ key.toList
  oneLine : '\n' ∉ key.toList
  noOption : isEchoOption key.toList = false

/-- A key is printed as its line. -/
theorem IsKey.keyText_eq {key : String} (h : IsKey key) : keyText key = key.toList ++ ['\n'] := by
  have hecho := echoE_of_plain h.plain []
  rw [List.append_nil] at hecho
  rw [keyText, if_neg (by simp [h.noOption]), hecho]
  rfl

/-- The lines are the keys. -/
theorem lines_keys {keys : List String} (h : ∀ key ∈ keys, IsKey key) :
    lines (keys.flatMap keyText) = keys.map String.toList := by
  induction keys with
  | nil => rfl
  | cons key keys ih =>
      rw [List.forall_mem_cons] at h
      rw [List.flatMap_cons, h.1.keyText_eq, List.append_assoc, List.singleton_append,
        lines_append h.1.oneLine, ih h.2, List.map_cons]

/-- **The keys of the configuration**, whatever the commands answer.  With none
of them the script ends before it does anything.  Otherwise the first of them are
in the file, behind what was not removed, and all of them if the script gets to
its end; and then they are its lines, if each can be one. -/
theorem keys_installed (D : Display) (c : Config) (w : World Ans) :
    ∃ p events, installKeys D c = some p ∧ (p.run w []).2 = events.reverse ∧
      (keysOf c = [] → (p.run w []).1 = .unset ∧ events = []) ∧
      (keysOf c ≠ [] → Installs (keysOf c) (p.run w []).1 events) ∧
      ((p.run w []).1 = .finished → removed events = true → (∀ key ∈ keysOf c, IsKey key) →
        ∀ old, lines ((contents old events).getD []) = (keysOf c).map String.toList) := by
  obtain ⟨p, hp, hemits⟩ := emits_installKeys D c
  obtain ⟨events, hrun, hevents⟩ := Script.run_of_emits w hemits []
  rw [List.append_nil] at hrun
  refine ⟨p, events, hp, hrun, fun hnone => ?_, fun hsome => ?_,
    fun hfinished hremoved hkeys old => ?_⟩
  · rwa [if_pos hnone] at hevents
  · rwa [if_neg hsome] at hevents
  · by_cases hnone : keysOf c = []
    · rw [if_pos hnone, hfinished] at hevents
      cases hevents.1
    · rw [if_neg hnone] at hevents
      obtain ⟨-, n, -, happended, hall⟩ := hevents
      rw [happended old, if_pos hremoved, hall hfinished, List.nil_append, List.take_length,
        lines_keys hkeys]

/-- Two keys, one of them with an escape of `echo -e` in its comment. -/
def twoKeys : Config :=
  { Config.empty with ssh := some ⟨none, ["ssh-rsa AAAA a@b", "ssh-rsa BBBB c\\td"]⟩ }

/-- Every command succeeds. -/
def obliging : World Ans
  | _, .print _ => ()
  | _, .rm _ => true
  | _, .mkdirP _ => true
  | _, .append .. => true
  | _, .chown .. => true

example :
    (installKeys noDisplay twoKeys).map (fun p =>
      ((p.run obliging []).1, contents (some "old\n".toList) (p.run obliging []).2.reverse)) =
      some (.finished, some "ssh-rsa AAAA a@b\nssh-rsa BBBB c\td\n".toList) := by
  decide +kernel

end Zebrafish.System.AuthorizedKeys
