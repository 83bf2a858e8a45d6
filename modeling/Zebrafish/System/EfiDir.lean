import Zebrafish.ConfigTool.EfiMount
import Zebrafish.Lib.Echo
import Zebrafish.Lib.Filter
import Zebrafish.Lib.Words

/-!
# Zebrafish.System.EfiDir

The directory of the kernel, as three programs look for it: `zebrafish-config`
(`discoverEfiDir`), the scripts of the boot (`zfs_efi_dir` in
`lib/zebrafish/functions`) and the upgrade (`lib/zebrafish/upgrade`).

Each reads the same tables with tools of its own.  `finds_agree` says where they
come to the same partition, the first two of them also to the same directory,
and what each of them does when there is no EFI partition, or more than one.
-/

namespace Zebrafish.System.EfiDir

open Shell ConfigTool

/-! ## the scripts -/

/-- `awk '$2=="vfat" && $3=="0x4"'`, of a line. -/
def isEfiRow (line : List Char) : Bool :=
  match words line with
  | _ :: fstype :: flags :: _ => fstype = "vfat".toList && flags = "0x4".toList
  | _ => false

def stdoutOf : Lsblk → List Char
  | .notRun _ => []
  | .failed _ stdout => stdout
  | .printed stdout => stdout

/-- `$(lsblk … | awk '… { print $1; exit }')`. -/
def firstPartition (stdout : List Char) : List Char :=
  match (lines stdout).find? isEfiRow with
  | some line => capture ((words line).headD [] ++ ['\n'])
  | none => []

/-- `grep -q " $ZEBRAFISH_CONFIG_EFI_MOUNT " /proc/mounts`. -/
def grepMounts (mounts : Option (List Char)) : Bool :=
  match mounts with
  | some text => (lines text).any fun line =>
      contains line (' ' :: (display efiMountPoint).toList ++ [' '])
  | none => false

/-- `zfs_efi_dir` where it has to look; `find` prints the directories of the
kernels under the mount point. -/
def searchEfiDir (find : Mounted → List DirPath) (host : Host) : Option DirPath :=
  let partition := firstPartition (stdoutOf host.lsblk)
  if partition = [] then none
  else if !host.canCreateDir then none
  else if grepMounts host.mounts then (find (host.shown none)).head?
  else
    match host.mount (devicePath partition) with
    | .mounted => (find (host.shown (some partition))).head?
    | _ => none

/-- `${file%/*}`. -/
def withoutFile (file : List Char) : List Char :=
  if '/' ∈ file then ((file.reverse.dropWhile (· ≠ '/')).drop 1).reverse else file

/-- `zfs_efi_dir`: what it prints if it succeeds, and
`ZEBRAFISH_CONFIG_EFI_FILE` after it; `isDir` is `[ -d … ]`. -/
def zfsEfiDir (find : Mounted → List DirPath) (isDir : List Char → Bool) (efiFile : List Char)
    (host : Host) : Option (List Char) × List Char :=
  -- already discovered in this shell
  if efiFile ≠ [] ∧ isDir (withoutFile efiFile) then (some (withoutFile efiFile), efiFile)
  else
    match searchEfiDir find host with
    | none => (none, efiFile)
    | some dir =>
        (some (display dir).toList, (display dir).toList ++ "/zebrafish.toml".toList)

/-- `EFI_PARTITIONS` of the upgrade. -/
def efiPartitions (stdout : List Char) : List Char :=
  capture (unlines (((lines stdout).filter isEfiRow).map fun line => line.takeWhile (· ≠ ' ')))

/-- `$(echo -e "$EFI_PARTITIONS" | wc -l)`. -/
def efiPartitionCount (partitions : List Char) : Nat := (echoE .plain partitions).count '\n'

/-- `EFI_PARTITION` of the upgrade, or the number of partitions it stops with. -/
def upgradePartition (stdout : List Char) : Except Nat (List Char) :=
  let partitions := efiPartitions stdout
  if efiPartitionCount partitions ≠ 1 then .error (efiPartitionCount partitions)
  else .ok (devicePath partitions)

/-! ## tables -/

/-- A character that no tool takes for anything but itself. -/
def IsPlain (c : Char) : Prop := isWhitespace c = false ∧ c ≠ Char.ofNat 0 ∧ c ≠ '\\'

/-- A line of `lsblk -nr -o NAME,FSTYPE,PARTFLAGS`; what is unknown is empty. -/
structure Row where
  name : List Char
  fstype : List Char
  partflags : List Char
  named : name ≠ []
  plain : ∀ field ∈ [name, fstype, partflags], ∀ c ∈ field, IsPlain c

namespace Row

def line (r : Row) : List Char := [' '].intercalate [r.name, r.fstype, r.partflags]

def isEfi (r : Row) : Bool := r.fstype = "vfat".toList && r.partflags = "0x4".toList

end Row

/-- A table, as `lsblk` prints it. -/
def table (rows : List Row) : List Char := unlines (rows.map Row.line)

/-- A line of `/proc/mounts`; the target is an absolute path, here its
components. -/
structure Mount where
  source : List Char
  target : List (List Char)
  fstype : List Char
  options : List Char
  filled : source ≠ [] ∧ fstype ≠ [] ∧ options ≠ []
  components : ∀ name ∈ target, name ≠ [] ∧ name ≠ ['.'] ∧ '/' ∉ name
  plain : ∀ field ∈ source :: fstype :: options :: target, ∀ c ∈ field, isWhitespace c = false
  noPaths : fstype.head? ≠ some '/' ∧ options.head? ≠ some '/'

namespace Mount

def targetPath (m : Mount) : List Char :=
  if m.target = [] then ['/'] else m.target.flatMap ('/' :: ·)

def fields (m : Mount) : List (List Char) :=
  [m.source, m.targetPath, m.fstype, m.options, ['0'], ['0']]

def line (m : Mount) : List Char := [' '].intercalate m.fields

end Mount

def mountTable (ms : List Mount) : List Char := unlines (ms.map Mount.line)

/-! ## reading a row -/

theorem isWhitespace_of_isIfs {c : Char} (h : isIfs c) : isWhitespace c = true := by
  simp only [isIfs, Bool.or_eq_true, decide_eq_true_eq] at h
  obtain (rfl | rfl) | rfl := h <;> decide

theorem isIfs_of_not_isWhitespace {c : Char} (h : isWhitespace c = false) : isIfs c = false := by
  by_contra hifs
  rw [isWhitespace_of_isIfs (by simpa using hifs)] at h
  cases h

namespace Row

/-- A row has no white space but blanks. -/
theorem not_mem_line (r : Row) {c : Char} (hc : isWhitespace c = true) (hblank : c ≠ ' ') :
    c ∉ r.line := by
  refine not_mem_intercalate (fun w hw hmem => ?_) hblank
  rw [(r.plain w hw c hmem).1] at hc
  cases hc

/-- The words of a row are its columns that are not empty. -/
theorem words_line (r : Row) :
    words r.line = [r.name, r.fstype, r.partflags].filter (· ≠ []) :=
  filter_splitOnP_intercalate (by decide) fun w hw c hc =>
    isIfs_of_not_isWhitespace (r.plain w hw c hc).1

/-- Rust has the same words. -/
theorem splitWhitespace_line (r : Row) :
    splitWhitespace r.line = [r.name, r.fstype, r.partflags].filter (· ≠ []) :=
  filter_splitOnP_intercalate (by decide) fun w hw c hc => (r.plain w hw c hc).1

theorem name_chars (r : Row) : '\n' ∉ r.name ∧ Char.ofNat 0 ∉ r.name ∧ '\\' ∉ r.name := by
  have hplain := r.plain r.name (by simp)
  exact ⟨fun hmem => absurd (hplain _ hmem).1 (by decide), fun hmem => (hplain _ hmem).2.1 rfl,
    fun hmem => (hplain _ hmem).2.2 rfl⟩

/-- The first column is the name. -/
theorem takeWhile_line (r : Row) : r.line.takeWhile (· ≠ ' ') = r.name := by
  have hline : r.line = r.name ++ ' ' :: [' '].intercalate [r.fstype, r.partflags] := by
    rw [line, List.intercalate_cons_of_ne_nil (by simp)]
    simp
  have hplain : ∀ c ∈ r.name, decide (c ≠ ' ') = true := by
    intro c hc
    rw [decide_eq_true_eq]
    rintro rfl
    exact absurd (r.plain r.name (by simp) _ hc).1 (by decide)
  rw [hline, List.takeWhile_append_of_pos hplain]
  simp

/-- The first word is the name, and the test finds the other two. -/
theorem fields (r : Row) :
    ([r.name, r.fstype, r.partflags].filter (· ≠ [])).headD [] = r.name ∧
      (match [r.name, r.fstype, r.partflags].filter (· ≠ []) with
        | _ :: fstype :: flags :: _ => fstype = "vfat".toList && flags = "0x4".toList
        | _ => false) = r.isEfi := by
  have hnamed := r.named
  by_cases hfstype : r.fstype = [] <;> by_cases hflags : r.partflags = [] <;>
    simp [hnamed, hfstype, hflags, isEfi]

end Row

/-! ## reading a table -/

section

variable (rows : List Row)

/-- The lines of a table are its rows. -/
theorem lines_table : lines (table rows) = rows.map Row.line := by
  refine lines_unlines fun l hl => ?_
  obtain ⟨r, -, rfl⟩ := List.mem_map.mp hl
  exact r.not_mem_line (by decide) (by decide)

/-- In Rust, too. -/
theorem strLines_table : strLines (table rows) = rows.map Row.line := by
  rw [strLines_eq, lines_table]
  simp only [table, unlines, List.mem_flatMap, List.mem_map, List.mem_append, List.mem_singleton,
    not_exists, not_and, not_or]
  rintro _ ⟨r, -, rfl⟩
  exact ⟨r.not_mem_line (by decide) (by decide), by decide⟩

/-- The test of awk is that of the row. -/
theorem isEfiRow_line (r : Row) : isEfiRow r.line = r.isEfi := by
  rw [isEfiRow, r.words_line]
  exact r.fields.2

/-- So is the test in Rust. -/
theorem isEfiLine_line (r : Row) : isEfiLine r.line = r.isEfi := by
  rw [isEfiLine, r.splitWhitespace_line]
  exact r.fields.2

/-- The rows that are found. -/
theorem filter_isEfiRow :
    (rows.map Row.line).filter isEfiRow = (rows.filter Row.isEfi).map Row.line := by
  rw [List.filter_map]
  congr 2
  exact funext isEfiRow_line

/-- `zebrafish-config` insists on one. -/
theorem findEfiPartition_table : findEfiPartition (.printed (table rows)) =
    match rows.filter Row.isEfi with
    | [r] => .ok r.name
    | [] => .error .notFound
    | found => .error (.ambiguous found.length) := by
  have hfound : ((strLines (table rows)).filter isEfiLine).map
      (fun line => (splitWhitespace line).headD []) = (rows.filter Row.isEfi).map Row.name := by
    rw [strLines_table, List.filter_map, List.map_map]
    congr 1
    · funext r
      rw [Function.comp_apply, r.splitWhitespace_line, r.fields.1]
    · congr 1
      exact funext isEfiLine_line
  rw [findEfiPartition, hfound]
  rcases rows.filter Row.isEfi with _ | ⟨r, _ | ⟨r', rest⟩⟩ <;> simp

/-- The scripts take the first. -/
theorem firstPartition_table :
    firstPartition (table rows) = ((rows.filter Row.isEfi).head?.map Row.name).getD [] := by
  have hfind : (lines (table rows)).find? isEfiRow =
      (rows.filter Row.isEfi).head?.map Row.line := by
    rw [lines_table, ← List.head?_filter, filter_isEfiRow, List.head?_map]
  rw [firstPartition, hfind]
  cases hhead : (rows.filter Row.isEfi).head? with
  | none => rfl
  | some r =>
      simp only [Option.map_some, Option.getD_some]
      rw [r.words_line, r.fields.1, capture_line ⟨r.name_chars.1, r.name_chars.2.1⟩]

/-- The upgrade counts lines, and one is the least there can be. -/
theorem upgradePartition_table : upgradePartition (table rows) =
    match rows.filter Row.isEfi with
    | [] => .ok (devicePath [])
    | [r] => .ok (devicePath r.name)
    | found => .error found.length := by
  have hnames : ∀ n ∈ (rows.filter Row.isEfi).map Row.name,
      n ≠ [] ∧ '\n' ∉ n ∧ Char.ofNat 0 ∉ n ∧ '\\' ∉ n := by
    intro n hn
    obtain ⟨r, -, rfl⟩ := List.mem_map.mp hn
    exact ⟨r.named, r.name_chars⟩
  have hpartitions : efiPartitions (table rows) =
      ['\n'].intercalate ((rows.filter Row.isEfi).map Row.name) := by
    rw [efiPartitions, lines_table, filter_isEfiRow, List.map_map,
      ← capture_unlines fun n hn => ⟨(hnames n hn).1, (hnames n hn).2.1, (hnames n hn).2.2.1⟩]
    congr 3
    exact funext Row.takeWhile_line
  have hcount : efiPartitionCount (efiPartitions (table rows)) =
      (rows.filter Row.isEfi).length - 1 + 1 := by
    have hecho := echoE_of_plain (not_mem_intercalate (c := '\n')
      (fun n hn => (hnames n hn).2.2.2) (by decide)) []
    rw [List.append_nil] at hecho
    rw [efiPartitionCount, hpartitions, hecho, List.count_append,
      count_intercalate fun n hn => (hnames n hn).2.1, List.length_map]
    rfl
  rw [upgradePartition, hcount, hpartitions]
  rcases rows.filter Row.isEfi with _ | ⟨r, _ | ⟨r', rest⟩⟩ <;> simp

end

/-! ## what is mounted -/

namespace Mount

theorem targetPath_ne_nil (m : Mount) : m.targetPath ≠ [] := by
  cases h : m.target <;> simp [targetPath, h]

/-- A mount point has no white space. -/
theorem not_mem_targetPath (m : Mount) {c : Char} (hc : isWhitespace c = true) :
    c ∉ m.targetPath := by
  have hslash : c ≠ '/' := by
    rintro rfl
    exact absurd hc (by decide)
  have hname : ∀ name ∈ m.target, c ∉ name := by
    intro name hmem hcn
    rw [m.plain name (by simp [hmem]) c hcn] at hc
    cases hc
  rw [targetPath]
  split
  · simpa using hslash
  · simpa [hslash] using hname

/-- A path is known by its components. -/
theorem pathComponents_targetPath (m : Mount) : pathComponents m.targetPath = (true, m.target) := by
  have hshape : ∀ names : List (List Char), names ≠ [] →
      names.flatMap ('/' :: ·) = [] ++ '/' :: ['/'].intercalate names := by
    intro names hne
    induction names with
    | nil => exact absurd rfl hne
    | cons name names ih =>
        by_cases hnil : names = []
        · simp [hnil]
        · rw [List.flatMap_cons, ih hnil, List.intercalate_cons_of_ne_nil hnil]
          simp
  rw [targetPath]
  split
  · next hnil => rw [hnil]; decide
  · next hne =>
      have hsplit := List.splitOn_intercalate '/' (fun name h => (m.components name h).2.2) hne
      rw [hshape m.target hne, pathComponents, List.splitOn_append_cons_self_of_not_mem (by simp),
        hsplit]
      simpa using fun name h => ⟨(m.components name h).1, (m.components name h).2.1⟩

/-- Nor has any field of a mount. -/
theorem not_mem_fields (m : Mount) {c : Char} (hc : isWhitespace c = true) :
    ∀ field ∈ m.fields, c ∉ field := by
  have hzero : c ≠ '0' := by
    rintro rfl
    exact absurd hc (by decide)
  have hplain : ∀ field ∈ m.source :: m.fstype :: m.options :: m.target, c ∉ field := by
    intro field hfield hmem
    rw [m.plain field hfield c hmem] at hc
    cases hc
  have htarget := m.not_mem_targetPath hc
  simp only [List.mem_cons, forall_eq_or_imp] at hplain
  simp [fields, hzero, hplain.1, hplain.2.1, hplain.2.2.1, htarget]

/-- The words of a mount are its fields. -/
theorem splitWhitespace_line (m : Mount) : splitWhitespace m.line = m.fields := by
  have hfields : ∀ field ∈ m.fields, ∀ c ∈ field, isWhitespace c = false := by
    intro field hfield c hmem
    by_contra hc
    exact m.not_mem_fields (by simpa using hc) field hfield hmem
  have hfilled := m.filled
  rw [splitWhitespace, line, filter_splitOnP_intercalate (by decide) hfields]
  simp [fields, hfilled.1, hfilled.2.1, hfilled.2.2, m.targetPath_ne_nil]

/-- The mount point stands between blanks in a line if it is the target. -/
theorem contains_line_iff (m : Mount) {path : List Char} (hslash : path.head? = some '/')
    (hblank : ' ' ∉ path) :
    contains m.line (' ' :: path ++ [' ']) = true ↔ m.targetPath = path := by
  rw [contains_iff, line, infix_between_iff hblank (m.not_mem_fields (by decide))
    (List.cons_ne_nil _ _), fields]
  constructor
  · rintro ⟨before, after, hbefore, hafter, heq⟩
    have hfstype : m.fstype ≠ path := fun h => m.noPaths.1 (h ▸ hslash)
    have hoptions : m.options ≠ path := fun h => m.noPaths.2 (h ▸ hslash)
    have hzero : ['0'] ≠ path := by
      rintro rfl
      cases hslash
    rcases before with _ | ⟨b₀, _ | ⟨b₁, _ | ⟨b₂, _ | ⟨b₃, _ | ⟨b₄, rest⟩⟩⟩⟩⟩ <;> simp_all
    have hlen := congrArg List.length heq.2.2.2.2.2
    have hpos := List.length_pos_iff.mpr hafter
    simp only [List.length_cons, List.length_append, List.length_nil] at hlen
    omega
  · rintro rfl
    exact ⟨[m.source], [m.fstype, m.options, ['0'], ['0']], by simp, by simp, rfl⟩

end Mount

section

variable (ms : List Mount)

/-- The lines of the table are the mounts. -/
theorem lines_mountTable : lines (mountTable ms) = ms.map Mount.line := by
  refine lines_unlines fun l hl => ?_
  obtain ⟨m, -, rfl⟩ := List.mem_map.mp hl
  exact not_mem_intercalate (m.not_mem_fields (by decide)) (by decide)

/-- In Rust, too. -/
theorem strLines_mountTable : strLines (mountTable ms) = ms.map Mount.line := by
  rw [strLines_eq, lines_mountTable]
  simp only [mountTable, unlines, List.mem_flatMap, List.mem_map, List.mem_append,
    List.mem_singleton, not_exists, not_and, not_or]
  rintro _ ⟨m, -, rfl⟩
  exact ⟨not_mem_intercalate (m.not_mem_fields (by decide)) (by decide), by decide⟩

/-- Both ways of asking whether the mount point is in use. -/
theorem isMounted_mountTable :
    isMounted (mountTable ms) (display efiMountPoint).toList =
      grepMounts (some (mountTable ms)) := by
  have hpath : pathComponents (display efiMountPoint).toList =
      (true, efiMountPoint.map String.toList) := by decide +kernel
  have hline : ∀ m : Mount, hasTarget (display efiMountPoint).toList m.line =
      contains m.line (' ' :: (display efiMountPoint).toList ++ [' ']) := by
    intro m
    rw [hasTarget, m.splitWhitespace_line, Mount.fields, Bool.eq_iff_iff,
      m.contains_line_iff (by decide +kernel) (by decide +kernel), decide_eq_true_eq,
      m.pathComponents_targetPath, hpath]
    constructor
    · intro h
      rw [Mount.targetPath, (Prod.mk.inj h).2]
      decide +kernel
    · intro h
      rw [← hpath, ← h, m.pathComponents_targetPath]
  rw [isMounted, grepMounts, strLines_mountTable, lines_mountTable, List.any_map, List.any_map]
  congr 1
  exact funext hline

end

/-! ## the directory -/

/-- What a partition has: one directory has the kernel, which is a file. -/
structure OneKernel (tree : Tree) (path : DirPath) : Prop where
  root : ∃ entries, tree = .dir entries
  unique : ∀ other, tree.HasKernel other ↔ other = path
  isFile : tree.get (path ++ [kernelImage]) = some .file

/-- `find … -type f -name zebrafish-kernel` finds the kernels of a tree, in some
order. -/
def Prints (found : List DirPath) (tree : Tree) : Prop :=
  ∀ dir, dir ∈ found ↔
    ∃ path, dir = efiMountPoint ++ path ∧ tree.get (path ++ [kernelImage]) = some .file

/-- A folder with the file has the kernel. -/
theorem hasKernel_of_file {tree : Tree} {path : DirPath}
    (h : tree.get (path ++ [kernelImage]) = some .file) : tree.HasKernel path := by
  rw [Tree.get_append] at h
  obtain ⟨t, ht, hfile⟩ := Option.bind_eq_some_iff.mp h
  cases t with
  | file => simp [ConfigTool.Tree.get] at hfile
  | dir entries =>
      rw [ConfigTool.Tree.get] at hfile
      obtain ⟨t', hlookup, -⟩ := Option.bind_eq_some_iff.mp hfile
      exact ⟨entries, ht, List.mem_map_of_mem (f := Prod.fst) (Assoc.mem_of_lookup hlookup)⟩

/-- The first folder that is found is the one. -/
theorem OneKernel.head?_found {tree : Tree} {path : DirPath} (hone : OneKernel tree path)
    {found : List DirPath} (h : Prints found tree) :
    found.head? = some (efiMountPoint ++ path) := by
  have hmem : ∀ dir, dir ∈ found ↔ dir = efiMountPoint ++ path := by
    intro dir
    rw [h dir]
    constructor
    · rintro ⟨other, rfl, hfile⟩
      rw [(hone.unique other).mp (hasKernel_of_file hfile)]
    · rintro rfl
      exact ⟨path, rfl, hone.isFile⟩
  cases found with
  | nil => simpa using hmem (efiMountPoint ++ path)
  | cons dir rest => rw [List.head?_cons, (hmem dir).mp (by simp)]

/-- What is under the mount point in the end, if the programs get that far with
a partition. -/
def reached (host : Host) (partition : List Char) : Option Mounted :=
  if !host.canCreateDir then none
  else if grepMounts host.mounts then some (host.shown none)
  else
    match host.mount (devicePath partition) with
    | .mounted => some (host.shown (some partition))
    | _ => none

/-- The search goes through what is mounted. -/
theorem searchEfiDir_eq (find : Mounted → List DirPath) (host : Host)
    (h : firstPartition (stdoutOf host.lsblk) ≠ []) :
    searchEfiDir find host =
      (reached host (firstPartition (stdoutOf host.lsblk))).bind fun fs => (find fs).head? := by
  rw [searchEfiDir, reached]
  simp only [if_neg h]
  split
  · rfl
  · split
    · rfl
    · cases host.mount (devicePath (firstPartition (stdoutOf host.lsblk))) <;> rfl

/-- The search with the partition of a row of the table. -/
theorem searchEfiDir_of_row (find : Mounted → List DirPath) (host : Host) {r : Row}
    (h : firstPartition (stdoutOf host.lsblk) = r.name) :
    searchEfiDir find host = (reached host r.name).bind fun fs => (find fs).head? := by
  have heq := searchEfiDir_eq find host
  rw [h] at heq
  exact heq r.named

/-- Without a partition there is no directory. -/
theorem discoverEfiDir_refused {host : Host} {e : EfiError}
    (h : findEfiPartition host.lsblk = .error e) (fuel : Nat) :
    discoverEfiDir host fuel = some (.error e.message) := by
  rw [discoverEfiDir, mountEfi, h]

/-- The directory of a file in it. -/
theorem withoutFile_append (dir : List Char) {name : List Char} (h : '/' ∉ name) :
    withoutFile (dir ++ '/' :: name) = dir := by
  have hname : ∀ c ∈ name.reverse, decide (c ≠ '/') = true := by
    intro c hc
    simpa using fun heq : c = '/' => h (heq ▸ List.mem_reverse.mp hc)
  rw [withoutFile, if_pos (by simp), List.reverse_append, List.reverse_cons, List.append_assoc,
    List.dropWhile_append_of_pos hname]
  simp

/-- In a shell that has not found the directory before. -/
theorem zfsEfiDir_first (find : Mounted → List DirPath) (isDir : List Char → Bool) (host : Host) :
    (zfsEfiDir find isDir [] host).1 =
      (searchEfiDir find host).map fun dir => (display dir).toList := by
  rw [zfsEfiDir, if_neg (by simp)]
  cases searchEfiDir find host <;> rfl

/-- Found once, the directory is printed again for as long as it is there, and
the tables are not read. -/
theorem zfsEfiDir_again {find : Mounted → List DirPath} {isDir : List Char → Bool} {host : Host}
    {dir : List Char} (h : (zfsEfiDir find isDir [] host).1 = some dir) (hdir : isDir dir)
    (host' : Host) :
    zfsEfiDir find isDir (zfsEfiDir find isDir [] host).2 host' =
      (some dir, (zfsEfiDir find isDir [] host).2) := by
  have hfile : (zfsEfiDir find isDir [] host).2 = dir ++ '/' :: "zebrafish.toml".toList := by
    rw [zfsEfiDir, if_neg (by simp)] at h ⊢
    cases hsearch : searchEfiDir find host with
    | none => simp [hsearch] at h
    | some found =>
        simp only [hsearch, Option.some.injEq] at h ⊢
        rw [h]
        rfl
  have hdrop : withoutFile (dir ++ '/' :: "zebrafish.toml".toList) = dir :=
    withoutFile_append dir (by decide)
  rw [hfile, zfsEfiDir, hdrop, if_pos ⟨by simp, hdir⟩]

/-- Mounting, with a partition that was found. -/
theorem mountEfi_eq {host : Host} {r : Row} {ms : List Mount}
    (hfind : findEfiPartition host.lsblk = .ok r.name)
    (hmounts : host.mounts = some (mountTable ms)) :
    (∀ fs, reached host r.name = some fs → mountEfi host = .ok (devicePath r.name, fs)) ∧
      (reached host r.name = none → ∃ e, mountEfi host = .error e) := by
  simp only [mountEfi, reached, hfind, hmounts, ← isMounted_mountTable]
  cases host.canCreateDir with
  | false => simp
  | true =>
      cases isMounted (mountTable ms) (display efiMountPoint).toList with
      | true => simp
      | false => cases host.mount (devicePath r.name) <;> simp

/-- **The programs compared**, for all tables of `lsblk` and of `/proc/mounts`,
in a shell that has not found the directory before.

With one EFI partition all three agree on it, and `zebrafish-config` and the
scripts of the boot on the directory, if the kernel is in one directory of it,
and on failing where nothing is mounted.  With more of them the scripts go on
with the first, and the others stop; with none, the upgrade goes on with a device
that has no name.  Once found, the directory stays found. -/
theorem finds_agree (host : Host) (rows : List Row) (ms : List Mount)
    (hlsblk : host.lsblk = .printed (table rows)) (hmounts : host.mounts = some (mountTable ms))
    (find : Mounted → List DirPath) (isDir : List Char → Bool) :
    (match rows.filter Row.isEfi with
    | [] => (∀ fuel, discoverEfiDir host fuel = some (.error EfiError.notFound.message)) ∧
        (zfsEfiDir find isDir [] host).1 = none ∧
        upgradePartition (table rows) = .ok (devicePath [])
    | [r] => findEfiPartition host.lsblk = .ok r.name ∧
        firstPartition (stdoutOf host.lsblk) = r.name ∧
        upgradePartition (table rows) = .ok (devicePath r.name) ∧
        (∀ fs tree path, reached host r.name = some fs → Shows fs efiMountPoint tree →
          Prints (find fs) tree → OneKernel tree path →
            (zfsEfiDir find isDir [] host).1 = some (display (efiMountPoint ++ path)).toList ∧
            ∃ k, ∀ fuel, k ≤ fuel →
              discoverEfiDir host fuel = some (.ok (efiMountPoint ++ path))) ∧
        (reached host r.name = none → (zfsEfiDir find isDir [] host).1 = none ∧
          ∃ e, ∀ fuel, discoverEfiDir host fuel = some (.error e))
    | r :: rest =>
        (∀ fuel, discoverEfiDir host fuel =
          some (.error (EfiError.ambiguous (rest.length + 1)).message)) ∧
        upgradePartition (table rows) = .error (rest.length + 1) ∧
        (zfsEfiDir find isDir [] host).1 = ((reached host r.name).bind fun fs =>
          (find fs).head?).map fun dir => (display dir).toList) ∧
    ∀ dir, (zfsEfiDir find isDir [] host).1 = some dir → isDir dir → ∀ host',
      zfsEfiDir find isDir (zfsEfiDir find isDir [] host).2 host' =
        (some dir, (zfsEfiDir find isDir [] host).2) := by
  refine ⟨?_, fun dir hdir his host' => zfsEfiDir_again hdir his host'⟩
  rw [zfsEfiDir_first]
  have hrust := findEfiPartition_table rows
  have hfirst := firstPartition_table rows
  have hupgrade := upgradePartition_table rows
  have hstdout : stdoutOf host.lsblk = table rows := by rw [hlsblk, stdoutOf]
  rw [← hlsblk] at hrust
  rw [← hstdout] at hfirst
  rcases hefi : rows.filter Row.isEfi with _ | ⟨r, _ | ⟨r', rest⟩⟩ <;>
    rw [hefi] at hrust hfirst hupgrade
  · refine ⟨discoverEfiDir_refused hrust, ?_, hupgrade⟩
    rw [searchEfiDir, hfirst]
    rfl
  · have hshell := searchEfiDir_of_row find host hfirst
    have hmount := mountEfi_eq hrust hmounts
    refine ⟨hrust, hfirst, hupgrade,
      fun fs tree path hreached hshows hprints hone => ?_, fun hnone => ?_⟩
    · obtain ⟨k, hk⟩ := kernelDir_unique hshows hone.root hone.unique
      refine ⟨?_, k, fun fuel hfuel => ?_⟩
      · rw [hshell, hreached, Option.bind_some, hone.head?_found hprints, Option.map_some]
      · rw [discoverEfiDir, hmount.1 fs hreached]
        exact hk fuel hfuel
    · obtain ⟨e, he⟩ := hmount.2 hnone
      exact ⟨by rw [hshell, hnone, Option.bind_none, Option.map_none],
        e, fun fuel => by rw [discoverEfiDir, he]⟩
  · exact ⟨discoverEfiDir_refused hrust, hupgrade,
      by rw [searchEfiDir_of_row find host hfirst]⟩

/-! ## a host -/

instance : DecidablePred IsPlain :=
  fun c => inferInstanceAs (Decidable (isWhitespace c = false ∧ c ≠ Char.ofNat 0 ∧ c ≠ '\\'))

theorem forall_of_all {P : Char → Prop} [DecidablePred P] {fields : List (List Char)}
    (h : (fields.all fun field => field.all fun c => decide (P c)) = true) :
    ∀ field ∈ fields, ∀ c ∈ field, P c := by
  simpa using h

/-- A disk, and the EFI partition on it. -/
def diskRow : Row where
  name := ['v', 'd', 'a']
  fstype := []
  partflags := []
  named := by decide
  plain := forall_of_all rfl

def efiRow : Row where
  name := ['v', 'd', 'a', '1']
  fstype := ['v', 'f', 'a', 't']
  partflags := ['0', 'x', '4']
  named := by decide
  plain := forall_of_all rfl

def rootMount : Mount where
  source := ['r', 'o', 'o', 't', 'f', 's']
  target := []
  fstype := ['r', 'o', 'o', 't', 'f', 's']
  options := ['r', 'w']
  filled := by decide
  components := by simp
  plain := forall_of_all rfl
  noPaths := by decide

def efiTree : Tree := .dir [("EFI", .dir [("zebrafish-kernel", .file)])]

/-- Nothing is mounted yet. -/
def bootedHost : Host where
  lsblk := .printed (table [diskRow, efiRow])
  canCreateDir := true
  mounts := some (mountTable [rootMount])
  mount _ := .mounted
  shown
    | some _ => efiTree.mounted efiMountPoint
    | none => (Tree.dir []).mounted efiMountPoint

/-- Its directories. -/
theorem get_efiTree {path : DirPath} {entries : List (String × Tree)}
    (h : efiTree.get path = some (.dir entries)) :
    path = [] ∧ entries = [("EFI", .dir [("zebrafish-kernel", .file)])] ∨
      path = ["EFI"] ∧ entries = [("zebrafish-kernel", .file)] := by
  have hfile : ∀ path : DirPath, Tree.file.get path ≠ some (.dir entries) := by
    intro path
    cases path <;> simp [ConfigTool.Tree.get]
  have hname : ∀ name rest, name ≠ "EFI" → efiTree.get (name :: rest) = none := by
    intro name rest hne
    rw [efiTree, ConfigTool.Tree.get, Assoc.lookup_eq_none_iff.mpr (by simpa using hne)]
    rfl
  have hkernel : ∀ name rest, name ≠ "zebrafish-kernel" →
      efiTree.get ("EFI" :: name :: rest) = none := by
    intro name rest hne
    change (ConfigTool.Tree.dir [("zebrafish-kernel", .file)]).get (name :: rest) = none
    rw [ConfigTool.Tree.get, Assoc.lookup_eq_none_iff.mpr (by simpa using hne)]
    rfl
  rcases path with _ | ⟨name, rest⟩
  · cases h
    exact Or.inl ⟨rfl, rfl⟩
  by_cases hefi : name = "EFI"
  · subst hefi
    rcases rest with _ | ⟨name, rest⟩
    · cases h
      exact Or.inr ⟨rfl, rfl⟩
    by_cases himage : name = "zebrafish-kernel"
    · subst himage
      exact absurd h (hfile rest)
    · rw [hkernel name rest himage] at h
      cases h
  · rw [hname name rest hefi] at h
    cases h

/-- The partition of the tests has one kernel. -/
theorem oneKernel_efiTree : OneKernel efiTree ["EFI"] where
  root := ⟨_, rfl⟩
  unique other := by
    constructor
    · rintro ⟨entries, hget, hmem⟩
      obtain ⟨rfl, rfl⟩ | ⟨rfl, -⟩ := get_efiTree hget
      · exact absurd hmem (by decide)
      · rfl
    · rintro rfl
      exact ⟨[("zebrafish-kernel", .file)], rfl, by decide⟩
  isFile := rfl

theorem finds_agree_booted :
    upgradePartition (table [diskRow, efiRow]) = .ok "/dev/vda1".toList ∧
    (zfsEfiDir (fun _ => [efiMountPoint ++ ["EFI"]]) (fun _ => true) [] bootedHost).1 =
      some "/run/zebrafish/efi/EFI".toList ∧
    ∃ k, ∀ fuel, k ≤ fuel →
      discoverEfiDir bootedHost fuel = some (.ok (efiMountPoint ++ ["EFI"])) := by
  obtain ⟨⟨-, -, hupgrade, hdir, -⟩, -⟩ := finds_agree bootedHost [diskRow, efiRow] [rootMount] rfl
    rfl (fun _ => [efiMountPoint ++ ["EFI"]]) fun _ => true
  refine ⟨hupgrade, hdir _ efiTree ["EFI"] ?_ (Tree.shows_mounted _ _) ?_ oneKernel_efiTree⟩
  · rfl
  · intro dir
    rw [List.mem_singleton]
    constructor
    · rintro rfl
      exact ⟨["EFI"], rfl, oneKernel_efiTree.isFile⟩
    · rintro ⟨path, rfl, hfile⟩
      rw [(oneKernel_efiTree.unique path).mp (hasKernel_of_file hfile)]

end Zebrafish.System.EfiDir
