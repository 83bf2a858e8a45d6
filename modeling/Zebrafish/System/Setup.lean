import Zebrafish.Lib.Lines
import Zebrafish.Lib.Script
import Zebrafish.System.Persistence

/-!
# Zebrafish.System.Setup

How a boot comes by its persistence pool (`lib/zebrafish/setup-persistence`).

A pool that can be imported is used; otherwise a device that carries a magic
header is formatted, and if there is none, a tmpfs takes the place of the pool.
What the commands answer is up to the world.  `formats_only_magic` says which
devices are formatted, over any number of boots, and `swap_guarded` what becomes
of the swap volume.
-/

namespace Zebrafish.System.Persistence

open Shell

/-- What is at the start of a device that may be formatted. -/
def magicHeader : List Char := "zebrafish-please-format-me".toList

def volDir : String := "/vol"

/-- The commands of the script, and the boots it runs in. -/
inductive Cmd
  | boot
  /-- `zfs_get_machine_id` -/
  | machineId
  | efiUnmount
  /-- `id -u` -/
  | userId
  /-- `ps aux`, searched for `containerd` -/
  | containerdRuns
  | mountpoint (dir : String)
  | zpoolImport
  | zpoolList
  | loadKey
  /-- `zfs mount -a` -/
  | zfsMount
  | lsblk
  /-- as much of a device as a magic header is long -/
  | dd (device : List Char)
  | zpoolCreate (device : List Char)
  /-- the names of all datasets -/
  | zfsList
  | zfsCreate (name : Name) (options : List String)
  /-- how many bytes the pool has left -/
  | zfsAvailable
  | zfsCreateVolume (name : Name) (size : Nat) (options : List String)
  | mkswap
  | swapon
  | writeInfo (dir : String)
  | mountTmpfs (dir : String)

/-- What they answer: if nothing else, whether they succeed. -/
abbrev Ans : Cmd → Type
  | .boot => Unit
  | .machineId => List Char
  | .efiUnmount => Unit
  | .userId => Nat
  | .containerdRuns => Bool
  | .mountpoint _ => Bool
  | .zpoolImport => Bool
  | .zpoolList => Bool
  | .loadKey => Bool
  | .zfsMount => Bool
  | .lsblk => List Char
  | .dd _ => List Char
  | .zpoolCreate _ => Bool
  | .zfsList => List Name
  | .zfsCreate .. => Bool
  | .zfsAvailable => Nat
  | .zfsCreateVolume .. => Bool
  | .mkswap => Bool
  | .swapon => Bool
  | .writeInfo _ => Unit
  | .mountTmpfs _ => Bool

/-- Runs a command. -/
def sh (c : Cmd) : Script Ans (Ans c) := Script.command c

/-! ## the pool -/

/-- `find_zebrafish_persistence_partition`: whether it prints the pool.  It runs
in a subshell, which is all that ends where it fails. -/
def findPersistencePartition : Script Ans Bool := do
  let _ ← sh .zpoolImport
  let there ← sh .zpoolList
  if there then
    let _ ← sh .loadKey
    sh .zfsMount
  else pure false

/-- The comparison of a header, without its NULs, with the magic one. -/
def isMagic (header : List Char) : Bool :=
  let header := capture (header.filter (· ≠ Char.ofNat 0))
  header ≠ [] && header = magicHeader

def findMagic : List (List Char) → Script Ans (Option (List Char))
  | [] => pure none
  | device :: devices => do
      let header ← sh (.dd device)
      if isMagic header then pure (some device) else findMagic devices

/-- `find_zebrafish_magic_device` -/
def findMagicDevice : Script Ans (Option (List Char)) := do
  let listed ← sh .lsblk
  findMagic (words (capture listed))

/-! ## the datasets -/

def calculateSwapSize (number : Nat) : Nat :=
  let halfGigabyte := 512 * 1024 * 1024
  let eightGb := 8 * 1024 * 1024 * 1024
  let tenPercent := number / 10
  let roundedUp := (tenPercent + halfGigabyte - 1) / halfGigabyte * halfGigabyte
  let roundedUp := if roundedUp > eightGb then eightGb else roundedUp
  if roundedUp > number then tenPercent else roundedUp

/-- The datasets, and what they are created with. -/
def plan : List (Name × List String) :=
  let oci := ["compression=zstd", "sync=always"]
  let persistent := "zebrafi.sh:persistent=true" :: oci
  [(zpoolVault, ["encryption=on", "keyformat=passphrase"]),
    (zpoolVaultPersistent, []),
    (zpoolOciPersistent, []),
    (zpoolOci, oci),
    (zpoolContainerd, oci ++ ["mountpoint=/oci/containerd"]),
    (zpoolDocker, oci ++ ["mountpoint=/oci/docker"]),
    (zpoolCoolify, oci ++ ["mountpoint=/oci/coolify"]),
    (zpoolCompose, persistent ++ ["mountpoint=/compose"]),
    (zpoolData, persistent ++ ["mountpoint=" ++ volDir]),
    (zpoolOverlay, persistent ++ ["mountpoint=/overlay"]),
    (zpoolLogs, persistent ++ ["mountpoint=/logs"]),
    (zpoolVolumes, persistent ++ ["mountpoint=/volumes"])]

def swapOptions : List String :=
  ["compression=zle", "logbias=throughput", "sync=always", "primarycache=metadata",
    "secondarycache=none", "com.sun:auto-snapshot=false"]

/-- Creates datasets that are not found in the list; `false` where the script
fails. -/
def createMissing (listed : List Char) : List (Name × List String) → Script Ans Bool
  | [] => pure true
  | (name, options) :: rest => do
      if contains listed name then createMissing listed rest
      else
        let ok ← sh (.zfsCreate name options)
        if ok then createMissing listed rest else pure false

/-- `create_zebrafish_datasets` -/
def createZebrafishDatasets : Script Ans Bool := do
  let datasets ← sh .zfsList
  let listed := xargs datasets
  let ok ← createMissing listed plan
  if ok then
    if contains listed zpoolSwap then pure true
    else
      let available ← sh .zfsAvailable
      let ok ← sh (.zfsCreateVolume zpoolSwap (calculateSwapSize available) swapOptions)
      if ok then sh .mkswap else pure false
  else pure false

/-! ## the script -/

/-- The sanity checks. -/
def checks : Script Ans Bool := do
  let uid ← sh .userId
  if uid = 0 then
    let running ← sh .containerdRuns
    if running then pure false
    else
      let mounted ← sh (.mountpoint volDir)
      pure !mounted
  else pure false

/-- What is done with the pool. -/
def usePool : Script Ans Bool := do
  let ok ← createZebrafishDatasets
  if ok then
    let ok ← sh .swapon
    if ok then
      -- the test of `is_fresh_zebrafish_persistence_partition` is always true
      sh (.writeInfo volDir)
      pure true
    else
      -- `$1` is unbound
      pure false
  else pure false

/-- A boot, up to its temporary directories and overlays; `false` where the
script exits. -/
def setupPersistence : Script Ans Bool := do
  let machine ← sh .machineId
  if capture machine = [] then pure false
  else
    sh .efiUnmount
    let ok ← checks
    if ok then
      let found ← findPersistencePartition
      if found then usePool
      else
        let magic ← findMagicDevice
        match magic with
        | some device =>
            let ok ← sh (.zpoolCreate device)
            if ok then usePool else pure false
        | none =>
            -- its exit status is not looked at
            let _ ← sh (.mountTmpfs volDir)
            pure true
    else pure false

/-- So many boots. -/
def boots : Nat → Script Ans Unit
  | 0 => pure ()
  | n + 1 => do
      sh .boot
      let _ ← setupPersistence
      boots n

/-! ## what a boot keeps to -/

open Script (Event History World Always wp)

/-- What happened in the boot that is going on. -/
def thisBoot : History Ans → History Ans
  | [] => []
  | ⟨.boot, _⟩ :: _ => []
  | e :: h => e :: thisBoot h

/-- Commands that come before anything is changed. -/
def isEarly : Cmd → Bool
  | .machineId | .efiUnmount | .userId | .containerdRuns | .mountpoint _ | .zpoolImport
  | .zpoolList | .loadKey | .zfsMount | .lsblk | .dd _ => true
  | _ => false

/-- In this boot nothing was changed so far. -/
def Early (h : History Ans) : Prop := ∀ e ∈ thisBoot h, isEarly e.1 = true

/-- In this boot the pool could not be used. -/
def NoPool (h : History Ans) : Prop :=
  ⟨.zpoolList, false⟩ ∈ thisBoot h ∨ ⟨.zfsMount, false⟩ ∈ thisBoot h

/-- In this boot the pool was imported, or created. -/
def OnPool (h : History Ans) : Prop :=
  (⟨.zpoolList, true⟩ ∈ thisBoot h ∧ ⟨.zfsMount, true⟩ ∈ thisBoot h) ∨
    ∃ device, ⟨.zpoolCreate device, true⟩ ∈ thisBoot h

/-- In this boot some devices were looked at and were not magic. -/
def Plain (devices : List (List Char)) (h : History Ans) : Prop :=
  ∀ d ∈ devices, ∃ header, ⟨.dd d, header⟩ ∈ thisBoot h ∧ header ≠ magicHeader

/-- Of the devices listed in this boot, the first that is magic. -/
def FirstMagic (device : List Char) (h : History Ans) : Prop :=
  ∃ listed before after, ⟨.lsblk, listed⟩ ∈ thisBoot h ∧
    words (capture listed) = before ++ device :: after ∧
      ⟨.dd device, magicHeader⟩ ∈ thisBoot h ∧ Plain before h

/-- `dd` reads no more than it is told to. -/
def rely : Event Ans → History Ans → Prop
  | ⟨.dd _, header⟩, _ => header.length ≤ magicHeader.length
  | _, _ => True

/-- The sizes a swap volume may have. -/
structure Fits (size available : Nat) : Prop where
  room : size ≤ available
  cap : size ≤ 8 * 1024 * 1024 * 1024
  tenth : available / 10 ≤ size ∨ size = 8 * 1024 * 1024 * 1024
  rounded : size % (512 * 1024 * 1024) = 0 ∨ size = available / 10

def guar : Event Ans → History Ans → Prop
  | ⟨.zpoolCreate device, _⟩, h => Early h ∧ NoPool h ∧ FirstMagic device h
  | ⟨.mountTmpfs _, _⟩, h => Early h ∧ NoPool h ∧
      ∃ listed, ⟨.lsblk, listed⟩ ∈ thisBoot h ∧ Plain (words (capture listed)) h
  | ⟨.zfsCreate .., _⟩, h => OnPool h
  | ⟨.zfsCreateVolume name size _, _⟩, h => name = zpoolSwap ∧ OnPool h ∧
      ∃ available past, h = ⟨.zfsAvailable, available⟩ :: past ∧ Fits size available
  | ⟨.mkswap, _⟩, h => ∃ size options past,
      h = ⟨.zfsCreateVolume zpoolSwap size options, true⟩ :: past
  | _, _ => True

variable {h : History Ans}

/-- One command: whatever it may answer, what it guarantees and what follows. -/
@[simp] theorem wp_sh {c : Cmd} {Q : Ans c → History Ans → Prop} :
    @wp Cmd Ans (no_index (Ans c)) rely guar (sh c) Q h ↔
      ∀ r, rely ⟨c, r⟩ h → guar ⟨c, r⟩ h ∧ Q r (⟨c, r⟩ :: h) := Script.wp_command

/-! ### headers, sizes -/

/-- What `$(...)` makes of a header is a part of it. -/
theorem capture_sublist (header : List Char) :
    (capture (header.filter (· ≠ Char.ofNat 0))).Sublist header := by
  have hdrop : (capture (header.filter (· ≠ Char.ofNat 0))).Sublist
      ((header.filter (· ≠ Char.ofNat 0)).filter (· ≠ Char.ofNat 0)) := by
    rw [capture, ← List.reverse_sublist, List.reverse_reverse]
    exact List.dropWhile_sublist _
  exact (hdrop.trans List.filter_sublist).trans List.filter_sublist

/-- A header is only taken for the magic one if it is. -/
theorem isMagic_iff {header : List Char} (hlen : header.length ≤ magicHeader.length) :
    isMagic header = true ↔ header = magicHeader := by
  constructor
  · intro hmagic
    simp only [isMagic, Bool.and_eq_true, decide_eq_true_eq] at hmagic
    have hsub := capture_sublist header
    rw [hmagic.2] at hsub
    exact (hsub.eq_of_length_le hlen).symm
  · rintro rfl
    decide +kernel

/-- The size that is calculated fits. -/
theorem fits_calculateSwapSize (available : Nat) :
    Fits (calculateSwapSize available) available := by
  unfold calculateSwapSize
  constructor <;> dsimp only <;> split <;> split <;> omega

/-! ### in the same boot -/

section

variable {c : Cmd} {r : Ans c}

/-- Any command but a boot is one of this boot. -/
theorem thisBoot_cons (hc : c ≠ .boot) (r : Ans c) :
    thisBoot (⟨c, r⟩ :: h) = ⟨c, r⟩ :: thisBoot h := by
  cases c <;> simp_all [thisBoot]

@[simp] theorem early_boot (r : Unit) : Early (⟨.boot, r⟩ :: h) := by
  simp [Early, thisBoot]

theorem ne_boot (hc : isEarly c = true) : c ≠ .boot := by
  rintro rfl
  cases hc

/-- An early command keeps it early. -/
theorem Early.cons (hearly : Early h) (hc : isEarly c = true) : Early (⟨c, r⟩ :: h) := by
  simp only [Early, thisBoot_cons (ne_boot hc), List.mem_cons, forall_eq_or_imp]
  exact ⟨hc, hearly⟩

/-- It makes no pool. -/
theorem NoPool.cons (hno : NoPool h) (hc : c ≠ .boot) : NoPool (⟨c, r⟩ :: h) := by
  simp only [NoPool, thisBoot_cons hc, List.mem_cons] at hno ⊢
  exact hno.imp Or.inr Or.inr

/-- A pool stays there until the next boot. -/
theorem OnPool.cons (hon : OnPool h) (hc : c ≠ .boot) : OnPool (⟨c, r⟩ :: h) := by
  simp only [OnPool, thisBoot_cons hc, List.mem_cons] at hon ⊢
  exact hon.imp (And.imp Or.inr Or.inr) (Exists.imp fun _ => Or.inr)

/-- Devices without the header stay so. -/
theorem Plain.cons {devices : List (List Char)} (hplain : Plain devices h) (hc : c ≠ .boot) :
    Plain devices (⟨c, r⟩ :: h) := by
  intro d hd
  obtain ⟨header, hin, hne⟩ := hplain d hd
  exact ⟨header, by rw [thisBoot_cons hc]; exact List.mem_cons_of_mem _ hin, hne⟩

end

/-! ### each part of the script -/

/-- Early commands guarantee what they have to. -/
theorem early_step (e : Event Ans) (h : History Ans) (he : isEarly e.1 = true) (_ : rely e h)
    (hearly : Early h) : guar e h ∧ Early (e :: h) := by
  obtain ⟨c, r⟩ := e
  refine ⟨?_, hearly.cons he⟩
  cases c <;> simp_all [guar, isEarly]

/-- The checks are early commands. -/
theorem only_checks : checks.Only fun c => isEarly c = true := by
  refine Script.Only.bind (Script.only_command.mpr rfl) fun uid => ?_
  split
  · refine Script.Only.bind (Script.only_command.mpr rfl) fun running => ?_
    split
    · exact Script.only_pure false
    · exact Script.Only.bind (Script.only_command.mpr rfl) fun mounted => Script.only_pure _
  · exact Script.only_pure false

/-- Looking for the pool. -/
theorem wp_findPersistencePartition (hearly : Early h) :
    wp rely guar findPersistencePartition
      (fun found h => Early h ∧ if found then OnPool h else NoPool h) h := by
  simp only [findPersistencePartition, Script.wp_bind, wp_sh, rely, guar, forall_const, true_and]
  intro imported there
  cases there with
  | false =>
      have hno : NoPool (⟨.zpoolList, false⟩ :: ⟨.zpoolImport, imported⟩ :: h) :=
        Or.inl (by simp [thisBoot])
      simpa using ⟨(hearly.cons rfl).cons rfl, hno⟩
  | true =>
      simp only [if_true, Script.wp_bind, wp_sh, rely, guar, forall_const, true_and]
      intro loaded mounted
      refine ⟨(((hearly.cons rfl).cons rfl).cons rfl).cons rfl, ?_⟩
      cases mounted
      · exact Or.inr (by simp [thisBoot])
      · exact Or.inl (by simp [thisBoot])

/-- A search among listed devices, of which some were looked at. -/
theorem wp_findMagic {listed : List Char} (devices : List (List Char)) {before : List (List Char)}
    (hsplit : words (capture listed) = before ++ devices) (hearly : Early h) (hno : NoPool h)
    (hlisted : ⟨.lsblk, listed⟩ ∈ thisBoot h) (hplain : Plain before h) :
    wp rely guar (findMagic devices) (fun magic h => Early h ∧ NoPool h ∧
      match magic with
      | some device => FirstMagic device h
      | none => ∃ listed, ⟨.lsblk, listed⟩ ∈ thisBoot h ∧ Plain (words (capture listed)) h) h := by
  induction devices generalizing before h with
  | nil =>
      rw [List.append_nil] at hsplit
      exact ⟨hearly, hno, listed, hlisted, hsplit ▸ hplain⟩
  | cons device devices ih =>
      rw [findMagic, Script.wp_bind, wp_sh]
      intro header hlen
      refine ⟨trivial, ?_⟩
      have hdd : ⟨.dd device, header⟩ ∈ thisBoot (⟨.dd device, header⟩ :: h) := by
        simp [thisBoot]
      have hlisted' : ⟨.lsblk, listed⟩ ∈ thisBoot (⟨.dd device, header⟩ :: h) := by
        simp [thisBoot, hlisted]
      have hplain' : Plain before (⟨.dd device, header⟩ :: h) := hplain.cons (by simp)
      have hearly' : Early (⟨.dd device, header⟩ :: h) := hearly.cons rfl
      have hno' : NoPool (⟨.dd device, header⟩ :: h) := hno.cons (by simp)
      split
      · next hmagic =>
          rw [(isMagic_iff hlen).mp hmagic] at hdd hlisted' hplain' hearly' hno' ⊢
          exact ⟨hearly', hno', listed, before, devices, hlisted', hsplit, hdd, hplain'⟩
      · next hmagic =>
          refine ih (by rw [hsplit, List.append_cons]) hearly' hno' hlisted' fun d hd => ?_
          obtain hd | hd := List.mem_append.mp hd
          · exact hplain' d hd
          · rw [List.mem_singleton.mp hd]
            exact ⟨header, hdd, fun heq => hmagic ((isMagic_iff hlen).mpr heq)⟩

/-- Creating what is missing, on a pool. -/
theorem wp_createMissing (listed : List Char) (missing : List (Name × List String))
    (hon : OnPool h) :
    wp rely guar (createMissing listed missing) (fun _ => OnPool) h := by
  induction missing generalizing h with
  | nil => exact hon
  | cons entry rest ih =>
      obtain ⟨name, options⟩ := entry
      rw [createMissing]
      split
      · exact ih hon
      · rw [Script.wp_bind, wp_sh]
        intro ok _
        refine ⟨hon, ?_⟩
        split
        · exact ih (hon.cons (by simp))
        · exact hon.cons (by simp)

/-- Creating all datasets, on a pool. -/
theorem wp_createZebrafishDatasets (hon : OnPool h) :
    wp rely guar createZebrafishDatasets (fun _ _ => True) h := by
  simp only [createZebrafishDatasets, Script.wp_bind, wp_sh, rely, guar, forall_const, true_and]
  intro datasets
  refine Script.wp_mono (wp_createMissing _ plan (hon.cons (by simp))) fun ok h hon => ?_
  split
  · split
    · trivial
    · simp only [Script.wp_bind, wp_sh, rely, guar, forall_const, true_and]
      intro available created
      refine ⟨⟨hon.cons (by simp), available, h, rfl, fits_calculateSwapSize available⟩, ?_⟩
      split
      · next hcreated =>
          rw [wp_sh]
          intro formatted _
          exact ⟨⟨_, _, _, by rw [hcreated]⟩, trivial⟩
      · trivial
  · trivial

/-- Taking a pool into use. -/
theorem wp_usePool (hon : OnPool h) : wp rely guar usePool (fun _ _ => True) h := by
  rw [usePool, Script.wp_bind]
  refine Script.wp_mono (wp_createZebrafishDatasets hon) fun ok h _ => ?_
  split
  · rw [Script.wp_bind, wp_sh]
    intro swapped _
    refine ⟨trivial, ?_⟩
    split <;> simp [rely, guar]
  · trivial

/-- The script, as a boot starts it. -/
theorem wp_setupPersistence (hearly : Early h) :
    wp rely guar setupPersistence (fun _ _ => True) h := by
  simp only [setupPersistence, Script.wp_bind, wp_sh, rely, guar, forall_const, true_and]
  intro machine
  split
  · trivial
  · simp only [Script.wp_bind, wp_sh, rely, guar, forall_const, true_and]
    have hearly : Early (⟨.efiUnmount, ()⟩ :: ⟨.machineId, machine⟩ :: h) :=
      (hearly.cons rfl).cons rfl
    intro r
    refine Script.wp_mono (Script.wp_of_only early_step only_checks hearly) fun ok h hearly => ?_
    split
    · rw [Script.wp_bind]
      refine Script.wp_mono (wp_findPersistencePartition hearly) fun found h hfound => ?_
      cases found with
      | true => exact wp_usePool hfound.2
      | false =>
          rw [if_neg (by simp), findMagicDevice, Script.wp_bind, Script.wp_bind, wp_sh]
          intro listed _
          refine ⟨trivial, Script.wp_mono (wp_findMagic _ (List.nil_append _).symm
            (hfound.1.cons rfl) (NoPool.cons hfound.2 (by simp)) (by simp [thisBoot])
            (by simp [Plain])) fun magic h hmagic => ?_⟩
          cases magic with
          | some device =>
              rw [Script.wp_bind, wp_sh]
              intro created _
              refine ⟨hmagic, ?_⟩
              split
              · next hcreated => exact wp_usePool (Or.inr ⟨device, by simp [thisBoot, hcreated]⟩)
              · trivial
          | none =>
              rw [Script.wp_bind, wp_sh]
              intro mounted _
              exact ⟨hmagic, trivial⟩
    · trivial

/-- Any number of boots. -/
theorem wp_boots (n : Nat) : wp rely guar (boots n) (fun _ _ => True) h := by
  induction n generalizing h with
  | zero => trivial
  | succ n ih =>
      rw [boots, Script.wp_bind, wp_sh]
      intro r _
      refine ⟨trivial, ?_⟩
      rw [Script.wp_bind]
      exact Script.wp_mono (wp_setupPersistence (early_boot r)) fun _ _ _ => ih

/-- What so many boots do, the newest event first. -/
def booted (n : Nat) (w : World Ans) : History Ans := ((boots n).run w []).2

/-- So all that was done was guaranteed. -/
theorem guar_booted {n : Nat} {w : World Ans} (hdd : Always rely (booted n w)) :
    Always guar (booted n w) := (Script.run_of_wp w (wp_boots n) hdd Always.nil).1

/-! ### a new machine -/

def firstDevice : List Char := "/dev/vda".toList

def secondDevice : List Char := "/dev/vdb".toList

/-- Whether a pool is created. -/
def isCreation : Event Ans → Bool
  | ⟨.zpoolCreate _, _⟩ => true
  | _ => false

/-- Whether something is formatted as swap. -/
def isMkswap : Event Ans → Bool
  | ⟨.mkswap, _⟩ => true
  | _ => false

/-- The second of two devices is magic until the pool is created on it. -/
def newMachine : World Ans
  | _, .boot => ()
  | _, .machineId => "zebra".toList
  | _, .efiUnmount => ()
  | _, .userId => 0
  | _, .containerdRuns => false
  | _, .mountpoint _ => false
  | h, .zpoolImport => h.any isCreation
  | h, .zpoolList => h.any isCreation
  | _, .loadKey => true
  | _, .zfsMount => true
  | _, .lsblk => firstDevice ++ '\n' :: secondDevice ++ ['\n']
  | _, .dd device => if device = secondDevice then magicHeader else []
  | _, .zpoolCreate _ => true
  | h, .zfsList => if h.any isMkswap then zpool :: managed else [zpool]
  | _, .zfsCreate .. => true
  | _, .zfsAvailable => 20 * 1024 * 1024 * 1024
  | _, .zfsCreateVolume .. => true
  | _, .mkswap => true
  | _, .swapon => true
  | _, .writeInfo _ => ()
  | _, .mountTmpfs _ => true

theorem rely_newMachine (n : Nat) : Always rely (booted n newMachine) := by
  refine Script.always_run (fun c h => ?_) (boots n) Always.nil
  cases c with
  | dd device =>
      simp only [rely, newMachine]
      split <;> simp
  | _ => trivial

/-- **Only a magic device is formatted**, in every boot: the first one listed
that starts with the magic header, where the pool is not there or its datasets
cannot be mounted, and before anything else is changed.  A tmpfs takes the place
of the pool only if no device is magic, and datasets are only created on a pool
of this boot. -/
theorem formats_only_magic (n : Nat) (w : World Ans) (hdd : Always rely (booted n w)) :
    (∀ device ok past, ⟨.zpoolCreate device, ok⟩ :: past <:+ booted n w →
      Early past ∧ NoPool past ∧ FirstMagic device past) ∧
      (∀ dir ok past, ⟨.mountTmpfs dir, ok⟩ :: past <:+ booted n w →
        Early past ∧ NoPool past ∧
          ∃ listed, ⟨.lsblk, listed⟩ ∈ thisBoot past ∧ Plain (words (capture listed)) past) ∧
      ∀ name options ok past, ⟨.zfsCreate name options, ok⟩ :: past <:+ booted n w →
        OnPool past :=
  ⟨fun _ _ past hin => guar_booted hdd _ past hin, fun _ _ past hin => guar_booted hdd _ past hin,
    fun _ _ _ past hin => guar_booted hdd _ past hin⟩

theorem formats_only_magic_new :
    (booted 2 newMachine).countP isCreation = 1 ∧
      ∀ device ok past, ⟨.zpoolCreate device, ok⟩ :: past <:+ booted 2 newMachine →
        Early past ∧ NoPool past ∧ FirstMagic device past :=
  ⟨by decide +kernel, (formats_only_magic 2 newMachine (rely_newMachine 2)).1⟩

/-- **The swap volume fits and is formatted at once**: it is created on a pool of
this boot, as large as `calculate_swap_size` says of what was left just before,
and nothing but a volume that was just created is formatted. -/
theorem swap_guarded (n : Nat) (w : World Ans) (hdd : Always rely (booted n w)) :
    (∀ name size options ok past,
      ⟨.zfsCreateVolume name size options, ok⟩ :: past <:+ booted n w →
        name = zpoolSwap ∧ OnPool past ∧ ∃ available earlier,
          past = ⟨.zfsAvailable, available⟩ :: earlier ∧ Fits size available) ∧
      ∀ ok past, ⟨.mkswap, ok⟩ :: past <:+ booted n w → ∃ size options earlier,
        past = ⟨.zfsCreateVolume zpoolSwap size options, true⟩ :: earlier := by
  refine ⟨fun name size options ok past hin => ?_,
    fun ok past hin => guar_booted hdd _ past hin⟩
  exact guar_booted hdd _ past hin

theorem swap_guarded_new :
    (booted 2 newMachine).countP isMkswap = 1 ∧
      ∀ ok past, ⟨.mkswap, ok⟩ :: past <:+ booted 2 newMachine → ∃ size options earlier,
        past = ⟨.zfsCreateVolume zpoolSwap size options, true⟩ :: earlier :=
  ⟨by decide +kernel, (swap_guarded 2 newMachine (rely_newMachine 2)).2⟩

end Zebrafish.System.Persistence
