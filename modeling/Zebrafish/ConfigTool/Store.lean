import Mathlib.Logic.Relation
import Zebrafish.Lib.Files
import Zebrafish.ConfigTool.Document

/-!
# Zebrafish.ConfigTool.Store

How a command changes the file (`store.rs`): read it, change the document,
write the text to a temporary file, rename that over the target.

A command is a process of several steps (`Step`), each of which may fail and
between any two of which it may be killed; nothing keeps other processes from
acting in between.  `Holds` is what a process knows of the files while nobody
else interferes, and `Step.effect` what a step then does to the target:
nothing, or the whole change at once.
-/

namespace Zebrafish.ConfigTool

open Files

/-! ## the temporary file -/

/-- A path with a file name, as `Path` takes it apart: what is before the name,
the name, and trailing separators. -/
structure FilePath where
  dir : List Char
  name : List Char
  trail : List Char
  name_ne : name ≠ []
  name_slash : '/' ∉ name
  name_dots : name ≠ ['.'] ∧ name ≠ ['.', '.']
  dir_slash : dir = [] ∨ dir.getLast? = some '/'
  trail_slash : ∀ c ∈ trail, c = '/' ∨ c = '.'

/-- A directory and a name in it. -/
abbrev Entry := List Char × List Char

def FilePath.entry (p : FilePath) : Entry := (p.dir, p.name)

/-- The text before and after the last dot. -/
def splitLastDot : List Char → Option (List Char × List Char)
  | [] => none
  | c :: cs =>
      match splitLastDot cs with
      | some (before, after) => some (c :: before, after)
      | none => if c = '.' then some ([], cs) else none

/-- `Path::file_stem`: the name up to its last dot, unless that is at its
start. -/
def fileStem (name : List Char) : List Char :=
  match splitLastDot name with
  | some (before, _) => if before = [] then name else before
  | none => name

/-- `with_extension("toml.tmp")`. -/
def FilePath.tmp (p : FilePath) : Entry := (p.dir, fileStem p.name ++ ".toml.tmp".toList)

example : fileStem "zebrafish.toml".toList = "zebrafish".toList ∧
    fileStem ".toml.tmp".toList = ".toml".toList ∧ fileStem ".profile".toList = ".profile".toList ∧
    fileStem "Makefile".toList = "Makefile".toList := by
  decide

/-- A text without a dot is not split. -/
theorem splitLastDot_none {cs : List Char} (h : splitLastDot cs = none) : '.' ∉ cs := by
  induction cs with
  | nil => exact List.not_mem_nil
  | cons c cs ih =>
      simp only [splitLastDot] at h
      split at h
      · cases h
      · next hrest =>
          split at h
          · cases h
          · next hc =>
              intro hmem
              rcases List.mem_cons.mp hmem with hdot | hmem
              · exact hc hdot.symm
              · exact ih hrest hmem

/-- A text is split at its last dot. -/
theorem splitLastDot_some {cs before after : List Char}
    (h : splitLastDot cs = some (before, after)) : cs = before ++ '.' :: after ∧ '.' ∉ after := by
  induction cs generalizing before with
  | nil => cases h
  | cons c cs ih =>
      simp only [splitLastDot] at h
      split at h
      · next before' after' hrest =>
          cases h
          obtain ⟨hcs, hafter⟩ := ih hrest
          exact ⟨congrArg (c :: ·) hcs, hafter⟩
      · next hrest =>
          split at h
          · next hc =>
              cases h
              exact ⟨by rw [hc]; rfl, splitLastDot_none hrest⟩
          · cases h

/-- The temporary file is not the target. -/
theorem FilePath.tmp_ne (p : FilePath) : p.tmp ≠ p.entry := by
  intro h
  have hname : fileStem p.name ++ ".toml.tmp".toList = p.name := congrArg Prod.snd h
  have hlonger : p.name ++ ".toml.tmp".toList ≠ p.name := by simp
  unfold fileStem at hname
  split at hname
  · next before after hsplit =>
      split at hname
      · exact hlonger hname
      · -- the new extension has a dot, the old one has not
        obtain ⟨hcs, hdot⟩ := splitLastDot_some hsplit
        rw [hcs] at hname
        have hext : "toml.tmp".toList = after :=
          List.tail_eq_of_cons_eq (List.append_cancel_left hname)
        rw [← hext] at hdot
        exact hdot (by decide)
  · exact hlonger hname

/-! ## one command -/

/-- `toml_edit`: the text of a document, read and printed. -/
structure TomlEdit where
  parse : Bytes → Option Table
  print : Table → Bytes

/-- What a process is asked to do; `file` says whether `--file` was given. -/
structure Job where
  file : Bool
  cmd : Command

/-- `load_document`, from what was read: a file that does not exist is an empty
document. -/
def loadDocument (T : TomlEdit) : Option Bytes → Option Table
  | none => some []
  | some text => T.parse text

/-- The text a command writes over the file it read, unless it ends in an
error. -/
def exec (T : TomlEdit) (job : Job) (content : Option Bytes) : Option Bytes := do
  let doc ← loadDocument T content
  match job.cmd.apply job.file doc with
  | .ok doc => some (T.print doc)
  | .error _ => none

/-- How far a process is. -/
inductive Proc
  /-- nothing read yet -/
  | start
  /-- the document is read and changed -/
  | ready (text : Bytes)
  /-- the temporary file is open and has got `off` bytes -/
  | writing (text : Bytes) (file : Inode) (off : Nat)
  /-- the temporary file is closed -/
  | written (text : Bytes)
  | renamed
  | succeeded
  /-- an error was reported -/
  | failed
  | killed (landed : Bool)

/-- Between reading the file and renaming. -/
def Proc.busy : Proc → Bool
  | .ready _ | .writing _ _ _ | .written _ => true
  | _ => false

/-- The rename took place. -/
def Proc.landed : Proc → Bool
  | .renamed | .succeeded => true
  | .killed landed => landed
  | _ => false

/-- Still running, with something left that can go wrong. -/
def Proc.fallible : Proc → Bool
  | .start | .ready _ | .writing _ _ _ | .written _ => true
  | _ => false

def Proc.running (p : Proc) : Bool :=
  match p with
  | .renamed => true
  | p => p.fallible

/-- One step of a process.  `load` covers everything up to the changed
document, `fail` every error there and later: a bad key path, a file that does
not parse, a section of the wrong kind, an index out of range, a directory or
file that cannot be made, a short write, a rename that is refused. -/
inductive Step (T : TomlEdit) (job : Job) (path : FilePath) :
    Proc → Fs Entry → Proc → Fs Entry → Prop
  | load {fs : Fs Entry} {text : Bytes} (h : exec T job (fs.read path.entry) = some text) :
      Step T job path .start fs (.ready text) fs
  | create {fs : Fs Entry} {text : Bytes} :
      Step T job path (.ready text) fs (.writing text (fs.create path.tmp).2 0)
        (fs.create path.tmp).1
  | write {fs : Fs Entry} {text : Bytes} {i : Inode} {off n : Nat} (h : off + n ≤ text.length) :
      Step T job path (.writing text i off) fs (.writing text i (off + n))
        (fs.write i off ((text.drop off).take n))
  | close {fs : Fs Entry} {text : Bytes} {i : Inode} :
      Step T job path (.writing text i text.length) fs (.written text) fs
  | rename {fs fs' : Fs Entry} {text : Bytes} (h : fs.rename path.tmp path.entry = some fs') :
      Step T job path (.written text) fs .renamed fs'
  | exit {fs : Fs Entry} : Step T job path .renamed fs .succeeded fs
  | fail {fs : Fs Entry} {p : Proc} (h : p.fallible) : Step T job path p fs .failed fs
  | kill {fs : Fs Entry} {p : Proc} (h : p.running) : Step T job path p fs (.killed p.landed) fs

/-- What a process relies on while nobody else interferes: the text it is about
to write comes from the target as it is, and the temporary file is its own. -/
def Holds (T : TomlEdit) (job : Job) (path : FilePath) : Proc → Fs Entry → Prop
  | .ready text, fs => exec T job (fs.read path.entry) = some text
  | .writing text i off, fs =>
      exec T job (fs.read path.entry) = some text ∧ off ≤ text.length ∧
        fs.entries path.tmp = some i ∧ fs.data i = text.take off
  | .written text, fs =>
      exec T job (fs.read path.entry) = some text ∧ fs.read path.tmp = some text
  | _, _ => True

variable {T : TomlEdit} {job : Job} {path : FilePath} {p p' : Proc} {fs fs' : Fs Entry}

/-- A process that is not at it knows nothing of the files. -/
theorem holds_of_not_busy (h : p.busy = false) : Holds T job path p fs := by
  cases p <;> trivial

/-- A step leaves the target alone, or is the rename that replaces it by the
whole new text. -/
def Effect (T : TomlEdit) (job : Job) (path : FilePath) (p : Proc) (fs : Fs Entry) (p' : Proc)
    (fs' : Fs Entry) : Prop :=
  (fs'.read path.entry = fs.read path.entry ∧ p'.landed = p.landed) ∨
    (p.busy ∧ p' = .renamed ∧ p.landed = false ∧
      ∃ text, exec T job (fs.read path.entry) = some text ∧ fs'.read path.entry = some text)

/-- What a process relies on stays true while it runs, and says what its steps
do. -/
theorem Step.effect (h : Holds T job path p fs) (hstep : Step T job path p fs p' fs') :
    Holds T job path p' fs' ∧ Effect T job path p fs p' fs' := by
  have hne : path.entry ≠ path.tmp := Ne.symm path.tmp_ne
  cases hstep with
  | load hexec => exact ⟨hexec, Or.inl ⟨rfl, rfl⟩⟩
  | create =>
      have hread := fs.read_create_of_ne hne
      obtain ⟨hentry, hdata⟩ := fs.entries_create path.tmp
      refine ⟨⟨?_, Nat.zero_le _, hentry, hdata⟩, Or.inl ⟨hread, rfl⟩⟩
      rw [hread]
      exact h
  | write hle =>
      obtain ⟨hexec, hoff, hentry, hdata⟩ := h
      have hread := fun off bytes => fs.read_write_of_ne hentry hne off bytes
      refine ⟨⟨?_, hle, hentry, ?_⟩, Or.inl ⟨hread _ _, rfl⟩⟩
      · rw [hread]
        exact hexec
      · rw [Fs.data_write, hdata, Fs.overwrite_take _ hoff]
  | close =>
      obtain ⟨hexec, _, hentry, hdata⟩ := h
      refine ⟨⟨hexec, ?_⟩, Or.inl ⟨rfl, rfl⟩⟩
      rw [Fs.read, hentry, Option.map_some, hdata, List.take_length]
  | rename hren =>
      obtain ⟨hexec, htmp⟩ := h
      exact ⟨trivial, Or.inr ⟨rfl, rfl, rfl, _, hexec, by rw [Fs.read_rename hren, htmp]⟩⟩
  | exit => exact ⟨trivial, Or.inl ⟨rfl, rfl⟩⟩
  | fail hrun =>
      refine ⟨trivial, Or.inl ⟨rfl, ?_⟩⟩
      cases p <;> first | rfl | cases hrun
  | kill hrun => exact ⟨trivial, Or.inl ⟨rfl, rfl⟩⟩

/-! ## one process -/

/-- A run of one process. -/
abbrev Runs (T : TomlEdit) (job : Job) (path : FilePath) :
    Proc × Fs Entry → Proc × Fs Entry → Prop :=
  Relation.ReflTransGen fun s s' => Step T job path s.1 s.2 s'.1 s'.2

theorem Runs.refl {s : Proc × Fs Entry} : Runs T job path s s := Relation.ReflTransGen.refl

/-- One more step. -/
theorem Runs.step {s : Proc × Fs Entry} (h : Runs T job path s (p, fs))
    (hstep : Step T job path p fs p' fs') : Runs T job path s (p', fs') :=
  Relation.ReflTransGen.tail h hstep

/-- What a process knows after any number of steps. -/
theorem runs_invariant {fs₀ : Fs Entry} {s : Proc × Fs Entry}
    (h : Runs T job path (.start, fs₀) s) :
    Holds T job path s.1 s.2 ∧
      (s.1.landed = false → s.2.read path.entry = fs₀.read path.entry) ∧
      (s.1.landed = true → ∃ text, exec T job (fs₀.read path.entry) = some text ∧
        s.2.read path.entry = some text) := by
  induction h with
  | refl => exact ⟨trivial, fun _ => rfl, fun hland => absurd hland (by simp [Proc.landed])⟩
  | tail _ hstep ih =>
      obtain ⟨hholds, hbefore, hafter⟩ := ih
      obtain ⟨hholds', heffect⟩ := hstep.effect hholds
      rcases heffect with ⟨hread, hland⟩ | ⟨_, hp', hland, text, hexec, hread⟩
      · rw [hread, hland]
        exact ⟨hholds', hbefore, hafter⟩
      · rw [hp']
        rw [hbefore hland] at hexec
        exact ⟨trivial, fun hno => absurd hno (by simp [Proc.landed]),
          fun _ => ⟨text, hexec, hread⟩⟩

/-- **One command.**  Wherever a command fails or is killed, the file is as it
was or holds the whole new document; it is as it was when an error was
reported, and the new document when the command succeeded.  The temporary file
is never the target. -/
theorem write_atomic (T : TomlEdit) (job : Job) (path : FilePath) (fs₀ : Fs Entry) (p : Proc)
    (fs : Fs Entry) (hrun : Runs T job path (.start, fs₀) (p, fs)) :
    (fs.read path.entry = fs₀.read path.entry ∨
      ∃ text, exec T job (fs₀.read path.entry) = some text ∧ fs.read path.entry = some text) ∧
    (p = .failed → fs.read path.entry = fs₀.read path.entry) ∧
    (p = .succeeded → ∃ text, exec T job (fs₀.read path.entry) = some text ∧
      fs.read path.entry = some text) ∧
    path.tmp ≠ path.entry := by
  obtain ⟨_, hbefore, hafter⟩ := runs_invariant hrun
  refine ⟨?_, ?_, ?_, path.tmp_ne⟩
  · cases hland : p.landed with
    | false => exact Or.inl (hbefore hland)
    | true => exact Or.inr (hafter hland)
  · rintro rfl
    exact hbefore rfl
  · rintro rfl
    exact hafter rfl

/-- Left alone with a changed document, a command can finish. -/
theorem runs_of_ready (T : TomlEdit) (job : Job) (path : FilePath) (text : Bytes)
    (fs : Fs Entry) :
    ∃ fs', Runs T job path (.ready text, fs) (.succeeded, fs') ∧
      fs'.read path.entry = some text := by
  obtain ⟨hentry, hdata⟩ := fs.entries_create path.tmp
  have hopen : Runs T job path (.ready text, fs)
      (.writing text (fs.create path.tmp).2 0, (fs.create path.tmp).1) := Runs.refl.step .create
  have hlen : 0 + text.length ≤ text.length := by omega
  have hwritten := hopen.step (.write hlen)
  rw [Nat.zero_add, List.drop_zero, List.take_length] at hwritten
  have hclosed := hwritten.step .close
  have hread : ((fs.create path.tmp).1.write (fs.create path.tmp).2 0 text).read path.tmp =
      some text := by
    rw [Fs.read, show Fs.entries (Fs.write _ _ _ _) _ = _ from hentry, Option.map_some,
      Fs.data_write, hdata]
    simp [Fs.overwrite]
  obtain ⟨fs', hren⟩ := Fs.rename_of_read hread path.entry
  exact ⟨fs', (hclosed.step (.rename hren)).step .exit, by rw [Fs.read_rename hren, hread]⟩

/-- Left alone, a command that can be applied succeeds. -/
theorem runs_of_exec {T : TomlEdit} {job : Job} {path : FilePath} {fs : Fs Entry} {text : Bytes}
    (h : exec T job (fs.read path.entry) = some text) :
    ∃ fs', Runs T job path (.start, fs) (.succeeded, fs') ∧ fs'.read path.entry = some text := by
  obtain ⟨fs', hrun, hread⟩ := runs_of_ready T job path text fs
  exact ⟨fs', (Runs.refl.step (.load h)).trans hrun, hread⟩

/-! ### a run -/

/-- `/etc/zebrafish.toml`. -/
def systemFile : FilePath where
  dir := "/etc/".toList
  name := "zebrafish.toml".toList
  trail := []
  name_ne := by decide
  name_slash := by decide
  name_dots := by decide
  dir_slash := by decide
  trail_slash := by simp

/-- No files at all. -/
def noFiles : Fs Entry where
  entries := fun _ => none
  data := fun _ => []
  next := 0
  fresh := by simp
  single := by simp

/-- The header of an array of tables. -/
def headerText (sec : String) : Bytes := [91, 91] ++ sec.toUTF8.toList ++ [93, 93, 10]

/-- A printer and reader for documents made of the headers of `wg` and
`nbd-client`. -/
def headersOnly : TomlEdit where
  print doc := [10].intercalate (doc.map fun e => headerText e.1)
  parse text :=
    let docs := [["wg"], ["nbd-client"], ["wg", "nbd-client"], ["nbd-client", "wg"]].map
      fun names => names.map fun sec => (sec, Item.arrayOfTables [[]])
    docs.find? fun doc => [10].intercalate (doc.map fun e => headerText e.1) = text

def addJob (sec : String) : Job := ⟨false, .add sec⟩

/-- `add wg` on a file that does not exist. -/
theorem exec_add_wg : exec headersOnly (addJob "wg") none = some (headerText "wg") := by
  decide +kernel

/-- A write of the temporary file that breaks off after two bytes leaves the
target absent. -/
theorem write_atomic_broken_off :
    ∃ fs, Runs headersOnly (addJob "wg") systemFile (.start, noFiles) (.failed, fs) ∧
      fs.read systemFile.entry = none := by
  have hload : Step headersOnly (addJob "wg") systemFile .start noFiles
      (.ready (headerText "wg")) noFiles := .load exec_add_wg
  have hlen : 0 + 2 ≤ (headerText "wg").length := by decide +kernel
  have hrun : Runs headersOnly (addJob "wg") systemFile (.start, noFiles) (.failed, _) :=
    (((Runs.refl.step hload).step .create).step (.write hlen)).step (.fail rfl)
  exact ⟨_, hrun, (write_atomic headersOnly (addJob "wg") systemFile noFiles _ _ hrun).2.1 rfl⟩

end Zebrafish.ConfigTool
