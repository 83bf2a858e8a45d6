import Zebrafish.Lib.Filter
import Zebrafish.Lib.Trace
import Zebrafish.System.Discover
import Zebrafish.System.Sections

/-!
# Zebrafish.System.Mounts

How the pools of a configuration come up and go down (`init.d/S46mounts`).

Which filesystems are mounted the script takes from the text that `zfs list`
prints, filtered by `grep` and split into words.  `mountable_listing` says which
those are, and `service_mounts` what the script does with pools, keys and
filesystems, whatever the commands answer.
-/

namespace Zebrafish.System.Mounts

open Toml Shell ConfigTool

/-- The commands of the script. -/
inductive Cmd
  /-- `echo`, with its newline if it prints one -/
  | print (text : List Char)
  | zpoolImport (pool : String)
  | zpoolExport (pool : String)
  /-- `zfs load-key -L prompt`, with its input -/
  | loadKey (input : List Char) (dataset : String)
  /-- `zfs unload-key -a` -/
  | unloadKeys
  /-- `zfs list -H -o name,mountpoint` -/
  | zfsList
  | zfsMount (filesystem : List Char)
  | zfsUnmount (filesystem : List Char)
  /-- `sleep 1` -/
  | sleep

abbrev Ans : Cmd → Type
  | .print _ => Unit
  | .zpoolImport _ => Bool
  | .zpoolExport _ => Bool
  | .loadKey .. => Bool
  | .unloadKeys => Bool
  | .zfsList => List Char
  | .zfsMount _ => Bool
  | .zfsUnmount _ => Bool
  | .sleep => Unit

open Script (Event History World Each)

/-- Runs a command. -/
def sh (c : Cmd) : Script Ans (Ans c) := Script.command c

def print (text : List Char) : Script Ans Unit := sh (.print text)

/-- `<command> && echo "OK" || echo "FAIL"`, with what is printed before. -/
def report (doing : List Char) (command : Script Ans Bool) : Script Ans Unit := do
  print (doing ++ ": ".toList)
  let ok ← command
  print (if ok then "OK\n".toList else "FAIL\n".toList)

/-! ## filesystems -/

/-- `grep -v '^zebrafish' | grep -v 'none$'`, of a line. -/
def isMountable (line : List Char) : Bool :=
  !"zebrafish".toList.isPrefixOf line && !"none".toList.isSuffixOf line

/-- `cut -f 1`, of a line. -/
def cutFirst (line : List Char) : List Char := line.takeWhile (· ≠ '\t')

/-- The words of `$(zfs list … | grep … | grep … | cut -f 1)`.  No name of a
dataset has a character that would make a pattern of it. -/
def mountable (output : List Char) : List (List Char) :=
  words (capture (unlines (((lines output).filter isMountable).map cutFirst)))

/-! ## the script -/

def poolVar (i : Nat) : String := "ZFS_MOUNT_" ++ (toString i ++ "_NAME")

def keyVar (i : Nat) (field : String) : String := "ZFS_KEY_" ++ (toString i ++ ("_" ++ field))

def zpoolImport (pool : String) : Script Ans Bool := sh (.zpoolImport pool)

def zpoolExport (pool : String) : Script Ans Bool := sh (.zpoolExport pool)

/-- `echo "${!key}" | zfs load-key …`. -/
def loadKey (key dataset : String) : Script Ans Bool := sh (.loadKey (echo key.toList) dataset)

def importPool (vars : Env) (i : Nat) : Script Ans Unit :=
  let pool := deref vars (poolVar i)
  report ("Importing ZFS pool ".toList ++ pool.toList) (zpoolImport pool)

def importKey (vars : Env) (i : Nat) : Script Ans Unit :=
  let dataset := deref vars (keyVar i "DATASET")
  let key := deref vars (keyVar i "KEY")
  report ("Importing ZFS key for ".toList ++ dataset.toList) (loadKey key dataset)

def mount (filesystem : List Char) : Script Ans Unit :=
  report ("Mounting ZFS filesystem ".toList ++ filesystem) (sh (.zfsMount filesystem))

def unmount (filesystem : List Char) : Script Ans Unit :=
  report ("Unmounting ZFS filesystem ".toList ++ filesystem) (sh (.zfsUnmount filesystem))

def exportPool (vars : Env) (i : Nat) : Script Ans Unit :=
  let pool := deref vars (poolVar i)
  report ("Detaching ZFS pool ".toList ++ pool.toList) (zpoolExport pool)

def doStart (D : Display) (c : Config) (vars : Env) : Option (Script Ans Unit) := do
  let (mountCount, vars) ← evalSection D c "zfs-mount" "ZFS_MOUNT_COUNT" vars
  let (keyCount, vars) ← evalSection D c "zfs-key" "ZFS_KEY_COUNT" vars
  pure do
    (List.range mountCount).foldlM (fun _ i => importPool vars i) ()
    (List.range keyCount).foldlM (fun _ i => importKey vars i) ()
    let output ← sh .zfsList
    (mountable output).foldlM (fun _ filesystem => mount filesystem) ()

/-- `do_stop`, and the variables after it. -/
def doStop (D : Display) (c : Config) (vars : Env) : Option (Script Ans Unit × Env) := do
  -- the section is evaluated after the filesystems are unmounted, which makes
  -- no difference to either
  let (mountCount, vars) ← evalSection D c "zfs-mount" "ZFS_MOUNT_COUNT" vars
  pure (do
    let output ← sh .zfsList
    (mountable output).foldlM (fun _ filesystem => unmount filesystem) ()
    (List.range mountCount).foldlM (fun _ i => exportPool vars i) ()
    let _ ← sh .unloadKeys
    pure (), vars)

/-- The script, in a shell with some variables. -/
def service (D : Display) (c : Config) (vars : Env) (verb : Verb) : Option (Script Ans Unit) :=
  onVerb (doStart D c) (doStop D c) (sh .sleep) vars verb

/-! ## filesystems of a listing -/

/-- A dataset, as `zfs list` prints it on a line. -/
structure Dataset where
  name : List Char
  mountpoint : List Char
  name_line : IsLine name
  no_tab : '\t' ∉ name
  mountpoint_line : IsLine mountpoint

def Dataset.line (d : Dataset) : List Char := d.name ++ '\t' :: d.mountpoint

def listing (ds : List Dataset) : List Char := unlines (ds.map Dataset.line)

/-- It does not belong to the pool of the system, and it has a mountpoint. -/
def Dataset.isWanted (d : Dataset) : Bool :=
  !"zebrafish".toList.isPrefixOf d.name && !"none".toList.isSuffixOf d.mountpoint

/-- The words the script finds in a listing: the names, taken apart where there
are blanks in them. -/
def wanted (ds : List Dataset) : List (List Char) :=
  (ds.filter Dataset.isWanted).flatMap fun d => words d.name

/-- The test of awk is that of the dataset. -/
theorem Dataset.isMountable_line (d : Dataset) : isMountable d.line = d.isWanted := by
  have hprefix : "zebrafish".toList.isPrefixOf d.line = "zebrafish".toList.isPrefixOf d.name :=
    isPrefixOf_append (by decide) _ _
  have hsuffix : "none".toList.isSuffixOf d.line = "none".toList.isSuffixOf d.mountpoint := by
    have hreverse : d.line.reverse = d.mountpoint.reverse ++ '\t' :: d.name.reverse := by
      simp [Dataset.line]
    rw [List.isSuffixOf, List.isSuffixOf, hreverse, isPrefixOf_append (by decide)]
  rw [isMountable, Dataset.isWanted, hprefix, hsuffix]

/-- The first column is the name. -/
theorem Dataset.cutFirst_line (d : Dataset) : cutFirst d.line = d.name := by
  have hname : ∀ c ∈ d.name, decide (c ≠ '\t') = true := by
    intro c hc
    simpa using fun heq : c = '\t' => d.no_tab (heq ▸ hc)
  rw [cutFirst, Dataset.line, List.takeWhile_append_of_pos hname]
  simp

/-- What is found in a listing is what is wanted. -/
theorem mountable_listing (ds : List Dataset) : mountable (listing ds) = wanted ds := by
  have hlines : lines (listing ds) = ds.map Dataset.line := by
    refine lines_unlines fun l hl => ?_
    obtain ⟨d, -, rfl⟩ := List.mem_map.mp hl
    simp [Dataset.line, d.name_line.1, d.mountpoint_line.1]
  have hkept : (ds.map Dataset.line).filter isMountable =
      (ds.filter Dataset.isWanted).map Dataset.line := by
    rw [List.filter_map]
    congr 2
    exact funext Dataset.isMountable_line
  rw [mountable, hlines, hkept, List.map_map, words_capture_lines, List.flatMap_map, wanted]
  · simp [Dataset.cutFirst_line]
  · intro l hl
    obtain ⟨d, -, rfl⟩ := List.mem_map.mp hl
    simpa [Dataset.cutFirst_line] using d.name_line.2

/-- Its name has no blanks. -/
def Dataset.IsWord (d : Dataset) : Prop := d.name ≠ [] ∧ ∀ c ∈ d.name, isIfs c = false

/-- Without blanks it is the names. -/
theorem wanted_of_words {ds : List Dataset} (h : ∀ d ∈ ds, d.isWanted → d.IsWord) :
    wanted ds = (ds.filter Dataset.isWanted).map Dataset.name := by
  rw [wanted, List.map_eq_flatMap]
  refine List.flatMap_congr fun d hd => ?_
  obtain ⟨hmem, hwanted⟩ := List.mem_filter.mp hd
  obtain ⟨hne, hname⟩ := h d hmem hwanted
  exact words_of_ne_nil hne hname

-- with blanks, it may be the system's pool
example : mountable "tank\t/tank\ntank/a zebrafish\t/b\nzebrafish\t/\n".toList =
    ["tank".toList, "tank/a".toList, "zebrafish".toList] := by decide +kernel

/-! ## what it does -/

def said (text : List Char) : Event Ans := ⟨.print text, ()⟩

/-- A command whose success is reported. -/
def Reports (doing : List Char) (e : Bool → Event Ans) (events : List (Event Ans)) : Prop :=
  ∃ ok, events =
    [said (doing ++ ": ".toList), e ok, said (if ok then "OK\n".toList else "FAIL\n".toList)]

def Imports (pool : String) : List (Event Ans) → Prop :=
  Reports ("Importing ZFS pool ".toList ++ pool.toList) fun ok => ⟨.zpoolImport pool, ok⟩

def Exports (pool : String) : List (Event Ans) → Prop :=
  Reports ("Detaching ZFS pool ".toList ++ pool.toList) fun ok => ⟨.zpoolExport pool, ok⟩

/-- A dataset gets its own key. -/
def Unlocks (z : ZfsKey) : List (Event Ans) → Prop :=
  Reports ("Importing ZFS key for ".toList ++ z.dataset.toList)
    fun ok => ⟨.loadKey (echo z.key.toList) z.dataset, ok⟩

def Attaches (filesystem : List Char) : List (Event Ans) → Prop :=
  Reports ("Mounting ZFS filesystem ".toList ++ filesystem) fun ok => ⟨.zfsMount filesystem, ok⟩

def Detaches (filesystem : List Char) : List (Event Ans) → Prop :=
  Reports ("Unmounting ZFS filesystem ".toList ++ filesystem)
    fun ok => ⟨.zfsUnmount filesystem, ok⟩

/-- The datasets are listed, and something is done to each word of the names of
those that are wanted, which are the datasets themselves if no name of them has
blanks. -/
def OnWanted (T : List Char → List (Event Ans) → Prop) (events : List (Event Ans)) : Prop :=
  ∃ output done, events = ⟨.zfsList, output⟩ :: done ∧
    ∀ ds, output = listing ds → Each T (wanted ds) done ∧
      ((∀ d ∈ ds, d.isWanted → d.IsWord) →
        Each T ((ds.filter Dataset.isWanted).map Dataset.name) done)

/-- What a configuration says of a key. -/
def configuredKey (z : ZfsKey) : ZfsKey where
  dataset := dropNul z.dataset
  key := dropNul z.key

/-- All pools are imported before any key is loaded, and the filesystems come
last. -/
def Starts (c : Config) (events : List (Event Ans)) : Prop :=
  ∃ imported unlocked mounted, events = imported ++ (unlocked ++ mounted) ∧
    Each Imports (NbdHeal.configured c).pools imported ∧
    Each (fun z => Unlocks (configuredKey z)) c.zfsKey unlocked ∧ OnWanted Attaches mounted

/-- The filesystems are unmounted before any pool is exported, and the keys come
last. -/
def Stops (c : Config) (events : List (Event Ans)) : Prop :=
  ∃ unmounted exported unloaded, events = unmounted ++ (exported ++ [⟨.unloadKeys, unloaded⟩]) ∧
    OnWanted Detaches unmounted ∧ Each Exports (NbdHeal.configured c).pools exported

/-! ## what it reads -/

/-- The section of the pools. -/
theorem zfsMounts (c : Config) : ListSection c "zfs-mount" ZfsMount.codec c.zfsMount where
  parse := by decide +kernel
  slot := ⟨_, rfl, rfl, rfl⟩
  walk := NbdHeal.Config.walk_zfsMount c

/-- The section `zfs-key`, as it is walked. -/
theorem Config.walk_zfsKey (c : Config) (tail : List Segment) :
    walkSegments (.field "zfs-key" :: tail) c.view =
      (if c.zfsKey.isEmpty then none else some (ZfsKey.codec.array.ser c.zfsKey)).bind
        (walkSegments tail) := by
  rw [Config.view, Config.codec, walk_struct (by decide +kernel)]
  simp only [Fields.optional, Fields.vec, Fields.cons, Fields.nil, lookup_entry]
  simp

/-- The section of the keys. -/
theorem zfsKeys (c : Config) : ListSection c "zfs-key" ZfsKey.codec c.zfsKey where
  parse := by decide +kernel
  slot := ⟨_, rfl, rfl, rfl⟩
  walk := Config.walk_zfsKey c

/-- What is written of a key. -/
theorem ZfsKey.walk_field (z : ZfsKey) (k : String) (tail : List Segment) :
    walkSegments (.field k :: tail) (ZfsKey.codec.ser z) =
      (if k = "dataset" then some (.string z.dataset)
      else if k = "key" then some (.string z.key)
      else none).bind (walkSegments tail) := by
  rw [ZfsKey.codec, walk_struct (by decide +kernel)]
  simp only [Fields.required, Fields.cons, Fields.nil, lookup_entry]
  rfl

section

variable {D : Display} {c : Config} {vars : Env}

/-- The name of a pool. -/
theorem deref_pool (h : Sees D c "zfs-mount" vars) {i : Nat} {z : ZfsMount}
    (hz : c.zfsMount[i]? = some z) : deref vars (poolVar i) = dropNul z.name := by
  have hname := h [.field "zfs-mount", .index i, .field "name"] false ⟨.string, rfl, rfl, rfl⟩ rfl
  rw [← NbdHeal.varName_pool, NbdHeal.textAt_pool, hz] at hname
  rw [deref, poolVar, hname]
  rfl

/-- The dataset and the text of a key. -/
theorem deref_key (h : Sees D c "zfs-key" vars) {i : Nat} {z : ZfsKey}
    (hz : c.zfsKey[i]? = some z) :
    deref vars (keyVar i "DATASET") = (configuredKey z).dataset ∧
      deref vars (keyVar i "KEY") = (configuredKey z).key := by
  have hname : ∀ k, keyVar i (mangle k) = varName [.field "zfs-key", .index i, .field k] false := by
    intro k
    have hsection : mangle "zfs-key" ++ "_" = "ZFS_KEY_" := by decide
    rw [varName_element, hsection, keyVar]
  have hdataset := (zfsKeys c).valueOf_element h i (k := "dataset") ⟨.string, rfl, rfl, rfl⟩
  have hkey := (zfsKeys c).valueOf_element h i (k := "key") ⟨.string, rfl, rfl, rfl⟩
  rw [← hname, hz] at hdataset hkey
  rw [show mangle "dataset" = "DATASET" by decide] at hdataset
  rw [show mangle "key" = "KEY" by decide] at hkey
  rw [deref, deref, hdataset, hkey]
  simp [textIn_of_walk (ZfsKey.walk_field _ _ _), textIn_string, configuredKey]

/-! ## its parts -/

/-- A command and what is said of it. -/
theorem emits_report {command : Script Ans Bool} {doing : List Char} {e : Bool → Event Ans}
    (h : command.Emits fun ok events => events = [e ok]) :
    (report doing command).Emits fun _ => Reports doing e := by
  simp only [report, print, sh, Script.emits_bind, Script.emits_command]
  refine fun _ => h.mono fun ok events hevents => ?_
  exact fun _ => ⟨ok, by rw [hevents]; rfl⟩

/-- A loop over the datasets that are wanted. -/
theorem emits_onWanted {f : List Char → Script Ans Unit}
    {T : List Char → List (Event Ans) → Prop} (hf : ∀ w, (f w).Emits fun _ => T w) :
    (sh .zfsList).Emits fun output events =>
      ((mountable output).foldlM (fun _ w => f w) ()).Emits fun _ later =>
        OnWanted T (events ++ later) := by
  intro output
  refine (Script.emits_forEach fun w _ => hf w).mono fun _ done hdone => ?_
  refine ⟨output, done, rfl, fun ds hds => ?_⟩
  rw [hds, mountable_listing] at hdone
  exact ⟨hdone, fun hwords => wanted_of_words hwords ▸ hdone⟩

/-- Mounting one of them. -/
theorem emits_mount (filesystem : List Char) :
    (mount filesystem).Emits fun _ => Attaches filesystem :=
  emits_report fun _ => rfl

/-- Unmounting one of them. -/
theorem emits_unmount (filesystem : List Char) :
    (unmount filesystem).Emits fun _ => Detaches filesystem :=
  emits_report fun _ => rfl

/-- The events of a start. -/
theorem emits_doStart (h : Plain D c vars) :
    ∃ p, doStart D c vars = some p ∧ p.Emits fun _ => Starts c := by
  obtain ⟨vars₁, hread₁, hplain₁, hpools₁, -⟩ :=
    (zfsMounts c).evalSection_spec (by decide : _ = "ZFS_MOUNT_COUNT") h
  obtain ⟨vars₂, hread₂, -, hkeys, hkept⟩ :=
    (zfsKeys c).evalSection_spec (by decide : _ = "ZFS_KEY_COUNT") hplain₁
  have hpools := hkept _ hpools₁
  refine ⟨_, by simp only [doStart, hread₁, hread₂, Option.bind_eq_bind, Option.bind_some]; rfl, ?_⟩
  have himport := Script.emits_forRange (f := fun i => importPool vars₂ i)
    (T := fun z : ZfsMount => Imports (dropNul z.name)) fun i z hz => by
      rw [importPool, deref_pool hpools hz]
      exact emits_report fun ok => rfl
  have hunlock := Script.emits_forRange (f := fun i => importKey vars₂ i)
    (T := fun z => Unlocks (configuredKey z)) fun i z hz => by
      obtain ⟨hdataset, hkey⟩ := deref_key hkeys hz
      rw [importKey, hdataset, hkey]
      exact emits_report fun ok => rfl
  simp only [Script.emits_bind]
  refine himport.mono fun _ imported himported => hunlock.mono fun _ unlocked hunlocked => ?_
  exact (emits_onWanted emits_mount).mono fun output listed hlisted =>
    hlisted.mono fun _ mounted hmounted =>
      ⟨imported, unlocked, _, rfl, Script.each_map.mpr himported, hunlocked, hmounted⟩

/-- The events of a stop. -/
theorem emits_doStop (h : Plain D c vars) :
    ∃ p vars', doStop D c vars = some (p, vars') ∧ (p.Emits fun _ => Stops c) ∧
      Plain D c vars' := by
  obtain ⟨vars', hread, hplain, hpools, -⟩ :=
    (zfsMounts c).evalSection_spec (by decide : _ = "ZFS_MOUNT_COUNT") h
  refine ⟨_, vars', by simp only [doStop, hread, Option.bind_eq_bind, Option.bind_some]; rfl, ?_,
    hplain⟩
  have hexport := Script.emits_forRange (f := fun i => exportPool vars' i)
    (T := fun z : ZfsMount => Exports (dropNul z.name)) fun i z hz => by
      rw [exportPool, deref_pool hpools hz]
      exact emits_report fun ok => rfl
  simp only [Script.emits_bind]
  refine (emits_onWanted emits_unmount).mono fun output listed hlisted =>
    hlisted.mono fun _ unmounted hunmounted => hexport.mono fun _ exported hexported => ?_
  exact fun unloaded => ⟨_, exported, unloaded, by simp, hunmounted, Script.each_map.mpr hexported⟩

end

/-- **The script.**  In a fresh shell, for every configuration and whatever the
commands answer. -/
theorem service_mounts (D : Display) (c : Config) (verb : Verb) (w : World Ans) :
    ∃ p events, service D c [] verb = some p ∧ (p.run w []).2 = events.reverse ∧
      Serves (Starts c) (Stops c) (· = [⟨.sleep, ()⟩]) verb events := by
  have hpause : (sh .sleep).Emits fun _ events => events = [⟨.sleep, ()⟩] := fun _ => rfl
  exact run_onVerb (fun _ => emits_doStart) (fun _ => emits_doStop) hpause Plain.nil verb w

end Zebrafish.System.Mounts
