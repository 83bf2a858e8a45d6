import Mathlib.Data.List.Induction
import Zebrafish.Lib.Assoc
import Zebrafish.Lib.Search

/-!
# Zebrafish.ConfigTool.Efi

Finding the kernel on the EFI partition (`efi.rs`): `kernel_dir` searches the
mounted partition for a directory that contains it.

The loop is a search with a stack (`kernelDirLoop_eq`).  On a finite directory
tree it therefore ends, whatever the order in which directories list their
entries, with a directory that contains the kernel if there is one.
-/

namespace Zebrafish.ConfigTool

/-- An absolute path, as its components. -/
abbrev DirPath := List String

/-- `Path::display`. -/
def display (path : DirPath) : String := String.join (path.map ("/" ++ ·))

/-- `KERNEL_IMAGE`. -/
def kernelImage : String := "zebrafish-kernel"

/-- What the program asks the file system about a path.  A directory that is
read lists the names of its entries, or nothing for one that cannot be read. -/
structure Mounted where
  doesExist : DirPath → Bool
  isDir : DirPath → Bool
  readDir : DirPath → Option (List (Option String))

/-! ## the code -/

/-- The loop over the entries of a directory: push those that are directories. -/
def pushDirs (fs : Mounted) (dir : DirPath) (names : List String) (stack : List DirPath) :
    List DirPath :=
  names.foldl (fun stack name => if fs.isDir (dir ++ [name]) then (dir ++ [name]) :: stack
    else stack) stack

/-- The loop of `kernel_dir`, given the stack from its top. -/
def kernelDirLoop (fs : Mounted) : Nat → List DirPath → Option (Option DirPath)
  | 0, _ => none
  | _ + 1, [] => some none
  | fuel + 1, dir :: stack =>
      if fs.doesExist (dir ++ [kernelImage]) then some (some dir)
      else
        match fs.readDir dir with
        | some entries => kernelDirLoop fs fuel (pushDirs fs dir (entries.filterMap id) stack)
        | none => kernelDirLoop fs fuel stack

/-- The error of `kernel_dir`. -/
def kernelNotFound (efiMount : DirPath) : String :=
  "could not find " ++ kernelImage ++ " under " ++ display efiMount

/-- `kernel_dir`. -/
def kernelDir (fs : Mounted) (fuel : Nat) (efiMount : DirPath) : Option (Except String DirPath) :=
  (kernelDirLoop fs fuel [efiMount]).map fun
    | some dir => .ok dir
    | none => .error (kernelNotFound efiMount)

/-! ## directory trees -/

/-- A file, or a directory with its entries. -/
inductive Tree
  | file
  | dir (entries : List (String × Tree))

namespace Tree

/-- Induction over the tree, with the hypothesis for every entry. -/
@[elab_as_elim]
theorem entries_induction {P : Tree → Prop} (file : P .file)
    (dir : ∀ entries : List (String × Tree), (∀ e ∈ entries, P e.2) → P (.dir entries))
    (t : Tree) : P t := by
  refine @Tree.rec P (fun entries => ∀ e ∈ entries, P e.2) (fun e => P e.2) file dir ?_ ?_ ?_ t
  · exact fun _ h => by cases h
  · intro head tail hhead htail
    exact List.forall_mem_cons.mpr ⟨hhead, htail⟩
  · intro k t ht
    exact ht

/-- What is at a path of a tree. -/
def get : Tree → DirPath → Option Tree
  | t, [] => some t
  | .file, _ :: _ => none
  | .dir entries, name :: path => (entries.lookup name).bind fun t => t.get path

/-- A path in two steps. -/
theorem get_append (t : Tree) (path rest : DirPath) :
    t.get (path ++ rest) = (t.get path).bind fun t => t.get rest := by
  induction path generalizing t with
  | nil => simp [get]
  | cons name path ih =>
      cases t with
      | file => simp [get]
      | dir entries =>
          simp only [List.cons_append, get]
          cases entries.lookup name with
          | none => simp
          | some t => simp [ih]

/-- What is in a directory. -/
theorem get_concat {t : Tree} {path : DirPath} {entries : List (String × Tree)}
    (h : t.get path = some (.dir entries)) (name : String) :
    t.get (path ++ [name]) = entries.lookup name := by
  rw [get_append, h, Option.bind_some, get]
  cases entries.lookup name <;> simp [get]

/-- A directory of a tree with an entry that has the name of the kernel. -/
def HasKernel (t : Tree) (path : DirPath) : Prop :=
  ∃ entries, t.get path = some (.dir entries) ∧ kernelImage ∈ entries.map Prod.fst

end Tree

/-- A file system has a tree under a path, without links: it can be read, and
every directory lists its entries, in some order. -/
structure Shows (fs : Mounted) (mount : DirPath) (tree : Tree) : Prop where
  doesExist : ∀ path, fs.doesExist (mount ++ path) = (tree.get path).isSome
  isDir : ∀ path, fs.isDir (mount ++ path) = true ↔ ∃ entries, tree.get path = some (.dir entries)
  readDir : ∀ path entries, tree.get path = some (.dir entries) →
    ∃ names : List String, fs.readDir (mount ++ path) = some (names.map some) ∧
      names.Perm (entries.map Prod.fst)

/-- A file system that has a tree under a path, and nothing else. -/
def Tree.mounted (tree : Tree) (mount : DirPath) : Mounted :=
  let resolve (path : DirPath) : Option Tree :=
    if mount <+: path then tree.get (path.drop mount.length) else none
  { doesExist := fun path => (resolve path).isSome
    isDir := fun path => match resolve path with
      | some (.dir _) => true
      | _ => false
    readDir := fun path => match resolve path with
      | some (.dir entries) => some (entries.map fun e => some e.1)
      | _ => none }

/-- A tree under its mount point shows that tree. -/
theorem Tree.shows_mounted (tree : Tree) (mount : DirPath) :
    Shows (tree.mounted mount) mount tree where
  doesExist path := by simp [mounted]
  isDir path := by
    simp only [mounted, List.prefix_append, if_true, List.drop_left]
    split <;> simp_all
  readDir path entries h := by
    refine ⟨entries.map Prod.fst, ?_, List.Perm.refl _⟩
    simp [mounted, h]

/-! ## the loop is a search -/

/-- The directories in a directory. -/
def subdirs (fs : Mounted) (dir : DirPath) : List DirPath :=
  ((((fs.readDir dir).getD []).filterMap id).map fun name => dir ++ [name]).filter fs.isDir

/-- The folders in a folder get onto the stack. -/
theorem pushDirs_eq (fs : Mounted) (dir : DirPath) (names : List String) (stack : List DirPath) :
    pushDirs fs dir names stack =
      ((names.map fun name => dir ++ [name]).filter fs.isDir).reverse ++ stack := by
  unfold pushDirs
  induction names generalizing stack with
  | nil => simp
  | cons name names ih =>
      rw [List.foldl_cons, ih, List.map_cons, List.filter_cons]
      split <;> simp

/-- The loop is a search with a stack. -/
theorem kernelDirLoop_eq (fs : Mounted) (fuel : Nat) (stack : List DirPath) :
    kernelDirLoop fs fuel stack =
      Search.run (fun dir => fs.doesExist (dir ++ [kernelImage])) (subdirs fs) fuel stack := by
  induction fuel generalizing stack with
  | zero => simp [kernelDirLoop, Search.run]
  | succ fuel ih =>
      cases stack with
      | nil => simp [kernelDirLoop, Search.run]
      | cons dir stack =>
          rw [kernelDirLoop, Search.run]
          cases hread : fs.readDir dir with
          | none => simp [ih, subdirs, hread]
          | some entries => simp [ih, pushDirs_eq, subdirs, hread]

/-! ## searching a tree -/

section

variable {fs : Mounted} {mount : DirPath} {tree : Tree}

/-- The folders that are seen are those of the tree. -/
theorem Shows.mem_subdirs (h : Shows fs mount tree) {path : DirPath}
    {entries : List (String × Tree)} (hdir : tree.get path = some (.dir entries))
    {dir : DirPath} :
    dir ∈ subdirs fs (mount ++ path) ↔
      ∃ name entries', dir = mount ++ (path ++ [name]) ∧
        entries.lookup name = some (.dir entries') := by
  obtain ⟨names, hread, hperm⟩ := h.readDir path entries hdir
  simp only [subdirs, hread, Option.getD_some, List.filterMap_map, List.mem_filter, List.mem_map,
    Function.id_comp, List.filterMap_some, List.append_assoc]
  constructor
  · rintro ⟨⟨name, _, rfl⟩, hisDir⟩
    obtain ⟨entries', hget⟩ := (h.isDir _).mp hisDir
    rw [Tree.get_concat hdir] at hget
    exact ⟨name, entries', rfl, hget⟩
  · rintro ⟨name, entries', rfl, hlookup⟩
    have hmem := List.mem_map_of_mem (f := Prod.fst) (Assoc.mem_of_lookup hlookup)
    refine ⟨⟨name, hperm.mem_iff.mpr hmem, rfl⟩, (h.isDir _).mpr ⟨entries', ?_⟩⟩
    rw [Tree.get_concat hdir, hlookup]

/-- No path of directories in a tree is infinite. -/
theorem Shows.acc (h : Shows fs mount tree) (t : Tree) :
    ∀ path, tree.get path = some t → (∃ entries, t = .dir entries) →
      Acc (fun dir' dir => dir' ∈ subdirs fs dir) (mount ++ path) := by
  induction t using Tree.entries_induction with
  | file =>
      rintro path _ ⟨entries, hdir⟩
      cases hdir
  | dir entries ih =>
      intro path hget _
      refine Acc.intro _ fun dir hdir => ?_
      obtain ⟨name, entries', rfl, hlookup⟩ := (h.mem_subdirs hget).mp hdir
      refine ih _ (Assoc.mem_of_lookup hlookup) _ ?_ ⟨entries', rfl⟩
      rw [Tree.get_concat hget, hlookup]

/-- What can be reached from the mount point are the directories of the tree. -/
theorem Shows.below_iff (h : Shows fs mount tree) (hroot : ∃ entries, tree = .dir entries)
    {dir : DirPath} :
    Search.Below (subdirs fs) mount dir ↔
      ∃ path entries, dir = mount ++ path ∧ tree.get path = some (.dir entries) := by
  obtain ⟨root, rfl⟩ := hroot
  constructor
  · intro hbelow
    induction hbelow with
    | refl => exact ⟨[], root, by simp, by simp [Tree.get]⟩
    | tail _ hmem ih =>
        obtain ⟨path, entries, rfl, hget⟩ := ih
        obtain ⟨name, entries', rfl, hlookup⟩ := (h.mem_subdirs hget).mp hmem
        exact ⟨path ++ [name], entries', rfl, by rw [Tree.get_concat hget, hlookup]⟩
  · rintro ⟨path, entries, rfl, hget⟩
    induction path using List.reverseRecOn generalizing entries with
    | nil =>
        rw [List.append_nil]
        exact Relation.ReflTransGen.refl
    | append_singleton path name ih =>
        rw [Tree.get_append] at hget
        obtain ⟨t, ht, hname⟩ := Option.bind_eq_some_iff.mp hget
        cases t with
        | file => simp [Tree.get] at hname
        | dir entries' =>
            have hlookup := Tree.get_concat ht name
            rw [Tree.get_append, ht, Option.bind_some, hname] at hlookup
            exact (ih entries' ht).tail
              ((h.mem_subdirs ht).mpr ⟨name, entries, rfl, hlookup.symm⟩)

/-- The kernel is seen where the tree has it. -/
theorem Shows.found_iff (h : Shows fs mount tree) {path : DirPath}
    {entries : List (String × Tree)} (hget : tree.get path = some (.dir entries)) :
    fs.doesExist (mount ++ path ++ [kernelImage]) = true ↔ tree.HasKernel path := by
  rw [List.append_assoc, h.doesExist, Tree.get_concat hget, Option.isSome_iff_ne_none, Ne,
    Assoc.lookup_eq_none_iff, not_not]
  simp [Tree.HasKernel, hget]

end

/-- On a finite directory tree `kernel_dir` ends: with a directory that contains
the kernel, or with an error if no directory of the tree does. -/
theorem kernelDir_finds {fs : Mounted} {mount : DirPath} {tree : Tree} (h : Shows fs mount tree)
    (hroot : ∃ entries, tree = .dir entries) :
    ∃ r k, (∀ fuel, k ≤ fuel → kernelDir fs fuel mount = some r) ∧
      (∀ dir, r = .ok dir → ∃ path, dir = mount ++ path ∧ tree.HasKernel path) ∧
      (∀ e, r = .error e → ∀ path, ¬ tree.HasKernel path) := by
  have hacc : ∀ dir ∈ [mount], Acc (fun dir' dir => dir' ∈ subdirs fs dir) dir := by
    intro dir hdir
    rw [List.mem_singleton.mp hdir, ← List.append_nil mount]
    exact h.acc tree [] (by simp [Tree.get]) hroot
  obtain ⟨r, k, hrun, hsome, hnone⟩ :=
    Search.run_spec (fun dir => fs.doesExist (dir ++ [kernelImage])) hacc
  cases r with
  | some dir =>
      obtain ⟨hfound, _, hmem, hbelow⟩ := hsome dir rfl
      rw [List.mem_singleton.mp hmem] at hbelow
      obtain ⟨path, entries, rfl, hget⟩ := (h.below_iff hroot).mp hbelow
      refine ⟨.ok (mount ++ path), k, fun fuel hfuel => ?_, ?_, ?_⟩
      · rw [kernelDir, kernelDirLoop_eq, hrun fuel hfuel, Option.map_some]
      · intro dir hdir
        cases hdir
        exact ⟨path, rfl, (h.found_iff hget).mp hfound⟩
      · intro e he
        cases he
  | none =>
      refine ⟨.error (kernelNotFound mount), k, fun fuel hfuel => ?_, ?_, ?_⟩
      · rw [kernelDir, kernelDirLoop_eq, hrun fuel hfuel, Option.map_some]
      · intro dir hdir
        cases hdir
      · rintro _ _ path ⟨entries, hget, hmem⟩
        have hbelow := (h.below_iff hroot).mpr ⟨path, entries, rfl, hget⟩
        have hfound := (h.found_iff hget).mpr ⟨entries, hget, hmem⟩
        rw [hnone rfl mount (List.mem_singleton_self mount) _ hbelow] at hfound
        cases hfound

/-- A partition with a kernel below its first directory. -/
def samplePartition : Tree :=
  .dir [("EFI", .dir [("BOOT", .dir [("BOOTX64.EFI", .file)]),
    ("zebrafish", .dir [("zebrafish-kernel", .file)])]), ("notes", .file)]

example : kernelDir (samplePartition.mounted ["efi"]) 4 ["efi"] =
    some (.ok ["efi", "EFI", "zebrafish"]) := by decide +kernel

theorem kernelDir_finds_sample :
    ∃ r k, (∀ fuel, k ≤ fuel →
        kernelDir (samplePartition.mounted ["efi"]) fuel ["efi"] = some r) ∧
      (∀ dir, r = .ok dir → ∃ path, dir = ["efi"] ++ path ∧ samplePartition.HasKernel path) ∧
      (∀ e, r = .error e → ∀ path, ¬ samplePartition.HasKernel path) :=
  kernelDir_finds (samplePartition.shows_mounted ["efi"]) ⟨_, rfl⟩

end Zebrafish.ConfigTool
