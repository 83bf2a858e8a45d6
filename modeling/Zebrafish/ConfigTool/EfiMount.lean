import Zebrafish.ConfigTool.Efi
import Zebrafish.ConfigTool.Path
import Zebrafish.Lib.Lines

/-!
# Zebrafish.ConfigTool.EfiMount

Finding and mounting the EFI partition (`efi.rs`): `find_efi_partition` reads the
table of `lsblk`, `mount_efi` that of `/proc/mounts`, and `discover_efi_dir` goes
on to search the partition for the kernel.
-/

namespace Zebrafish.ConfigTool

open Shell (lines)

/-! ## texts -/

/-- `str::lines`: a carriage return before the newline belongs to it. -/
def strLines : List Char → List (List Char)
  | [] => []
  | '\n' :: cs => [] :: strLines cs
  | '\r' :: '\n' :: cs => [] :: strLines cs
  | c :: cs =>
      match strLines cs with
      | [] => [[c]]
      | l :: ls => (c :: l) :: ls

/-- `str::split_whitespace`. -/
def splitWhitespace (cs : List Char) : List (List Char) :=
  (cs.splitOnP isWhitespace).filter (· ≠ [])

/-- Whether a path is absolute, and its components.  Of a relative path the
source compares none with an absolute one. -/
def pathComponents (path : List Char) : Bool × List (List Char) :=
  (path.head? = some '/', (path.splitOn '/').filter fun name => name ≠ [] && name ≠ ['.'])

/-! ## the partition -/

/-- What running `lsblk` comes to. -/
inductive Lsblk
  | notRun (error : String)
  | failed (status : String) (stdout : List Char)
  | printed (stdout : List Char)

inductive EfiError
  | lsblk (error : String)
  | ambiguous (n : Nat)
  | notFound

def EfiError.message : EfiError → String
  | .lsblk error => "could not run lsblk: " ++ error
  | .ambiguous n => "found " ++ toString n ++ " EFI system partitions, expected exactly 1"
  | .notFound => "no EFI system partition found"

/-- A `vfat` filesystem with the flags `0x4`. -/
def isEfiLine (line : List Char) : Bool :=
  match splitWhitespace line with
  | _ :: fstype :: flags :: _ => fstype = "vfat".toList && flags = "0x4".toList
  | _ => false

/-- `find_efi_partition`. -/
def findEfiPartition : Lsblk → Except EfiError (List Char)
  | .notRun error => .error (.lsblk error)
  | .failed status _ => .error (.lsblk ("lsblk exited with status " ++ status))
  | .printed stdout =>
      let found := ((strLines stdout).filter isEfiLine).map fun line =>
        (splitWhitespace line).headD []
      match found with
      | [name] => .ok name
      | [] => .error .notFound
      | names => .error (.ambiguous names.length)

/-! ## the mount point -/

/-- `EFI_MOUNT_POINT`. -/
def efiMountPoint : DirPath := ["run", "zebrafish", "efi"]

/-- Whether a line of `/proc/mounts` has a path for its target. -/
def hasTarget (path line : List Char) : Bool :=
  match splitWhitespace line with
  | _ :: target :: _ => pathComponents target = pathComponents path
  | _ => false

/-- `is_mounted`, given what `/proc/mounts` has. -/
def isMounted (mounts path : List Char) : Bool := (strLines mounts).any (hasTarget path)

/-- What running `mount` comes to. -/
inductive Mounting
  | notRun (error : String)
  | failed (status : String)
  | mounted

/-- What the programs find on a host.  `shown` is what is under the mount point,
as it is or with a partition mounted there. -/
structure Host where
  lsblk : Lsblk
  canCreateDir : Bool
  /-- `/proc/mounts` -/
  mounts : Option (List Char)
  /-- `mount -r -t vfat` of a device -/
  mount : List Char → Mounting
  shown : Option (List Char) → Mounted

def devicePath (partition : List Char) : List Char := "/dev/".toList ++ partition

/-- `mount_efi`: the partition, and what is under the mount point then. -/
def mountEfi (host : Host) : Except String (List Char × Mounted) :=
  match findEfiPartition host.lsblk with
  | .error e => .error e.message
  | .ok partition =>
      if host.canCreateDir then
        match host.mounts with
        | none => .error "reading /proc/mounts"
        | some mounts =>
            if isMounted mounts (display efiMountPoint).toList then
              .ok (devicePath partition, host.shown none)
            else
              match host.mount (devicePath partition) with
              | .mounted => .ok (devicePath partition, host.shown (some partition))
              | .failed status => .error ("mount exited with status " ++ status)
              | .notRun error => .error ("could not mount " ++
                  String.ofList (devicePath partition) ++ " at " ++ display efiMountPoint ++ ": " ++
                  error)
      else .error ("creating mount point " ++ display efiMountPoint)

/-- `discover_efi_dir`. -/
def discoverEfiDir (host : Host) (fuel : Nat) : Option (Except String DirPath) :=
  match mountEfi host with
  | .error e => some (.error e)
  | .ok (_, fs) => kernelDir fs fuel efiMountPoint

/-! ## plain texts -/

/-- Without carriage returns, lines are lines. -/
theorem strLines_eq {cs : List Char} (h : '\r' ∉ cs) : strLines cs = lines cs := by
  fun_induction strLines cs with
  | case1 => rfl
  | case2 cs ih => simp_all [lines]
  | case3 cs ih => simp at h
  | case4 c cs hnewline _ hnil ih =>
      have hlines := ih fun hmem => h (List.mem_cons_of_mem c hmem)
      rw [lines, if_neg hnewline, ← hlines, hnil]
  | case5 c cs hnewline _ l ls hcons ih =>
      have hlines := ih fun hmem => h (List.mem_cons_of_mem c hmem)
      rw [lines, if_neg hnewline, ← hlines, hcons]

/-! ## searching -/

/-- On a partition that has the kernel in one directory only, that is what is
found. -/
theorem kernelDir_unique {fs : Mounted} {mount : DirPath} {tree : Tree} (h : Shows fs mount tree)
    (hroot : ∃ entries, tree = .dir entries) {path : DirPath}
    (hpath : ∀ other, tree.HasKernel other ↔ other = path) :
    ∃ k, ∀ fuel, k ≤ fuel → kernelDir fs fuel mount = some (.ok (mount ++ path)) := by
  have hacc : ∀ dir ∈ [mount], Acc (fun dir' dir => dir' ∈ subdirs fs dir) dir := by
    intro dir hdir
    rw [List.mem_singleton.mp hdir, ← List.append_nil mount]
    exact h.acc tree [] (by simp [Tree.get]) hroot
  obtain ⟨r, k, hrun, hsome, hnone⟩ :=
    Search.run_spec (fun dir => fs.doesExist (dir ++ [kernelImage])) hacc
  have hfound : r = some (mount ++ path) := by
    cases r with
    | some dir =>
        obtain ⟨hfound, top, htop, hbelow⟩ := hsome dir rfl
        rw [List.mem_singleton.mp htop] at hbelow
        obtain ⟨other, entries, rfl, hget⟩ := (h.below_iff hroot).mp hbelow
        rw [(hpath other).mp ((h.found_iff hget).mp hfound)]
    | none =>
        obtain ⟨entries, hget, hmem⟩ := (hpath path).mpr rfl
        have hbelow := (h.below_iff hroot).mpr ⟨path, entries, rfl, hget⟩
        have hfound := (h.found_iff hget).mpr ⟨entries, hget, hmem⟩
        rw [hnone rfl mount (List.mem_singleton_self mount) _ hbelow] at hfound
        cases hfound
  refine ⟨k, fun fuel hfuel => ?_⟩
  rw [kernelDir, kernelDirLoop_eq, hrun fuel hfuel, hfound, Option.map_some]

end Zebrafish.ConfigTool
