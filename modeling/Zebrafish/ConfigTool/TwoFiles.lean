import Zebrafish.ConfigTool.Store
import Zebrafish.ConfigTool.Change
import Zebrafish.ConfigTool.Load

/-!
# Zebrafish.ConfigTool.TwoFiles

Which file a command writes (`target_path` in `store.rs`), and what the two
files are together.

Without `--file`, a command on `[machine]` writes the file on the EFI partition
and any other command the system file.  So the files stay apart, and a sequence
of commands does to their union, which is what `load` reads, what it would do to
one document (`calls_refine`).
-/

namespace Zebrafish.ConfigTool

open Toml Rust Files

def SYSTEM_FILE : String := "/etc/zebrafish.toml"

/-- `efi_dir.join("zebrafish.toml")` -/
def machineFile (efiDir : String) : String :=
  if efiDir = "" ∨ efiDir.toList.getLast? = some '/' then efiDir ++ "zebrafish.toml"
  else efiDir ++ "/zebrafish.toml"

/-- The global options. -/
structure Ctx where
  efi : Bool
  efiDir : Option String
  file : Option String

/-- A command with its options; `discovered` is what `discover_efi_dir` comes
to, a directory or an error. -/
structure Call where
  ctx : Ctx
  discovered : Except String String
  cmd : Command

def targetPath (discovered : Except String String) (sec : String) (ctx : Ctx) :
    Except EditError String :=
  match ctx.file with
  | some path => .ok path
  | none =>
      if sec = "machine" then
        match ctx.efiDir with
        | some dir => .ok (machineFile dir)
        | none =>
            if ctx.efi then
              match discovered with
              | .ok dir => .ok (machineFile dir)
              | .error message => .error (.bail message)
            else .error (.bail "cannot write [machine] without --efi (or --efi-dir)")
      else .ok SYSTEM_FILE

/-- A path from its end, without the separators and `.` components there. -/
def trimEnd : List Char → List Char
  | '/' :: cs => trimEnd cs
  | '.' :: '/' :: cs => trimEnd cs
  | cs => cs

/-- `path.with_extension("toml.tmp")`; a path without a file name stays as it
is. -/
def tmpFile (path : String) : String :=
  let trimmed := trimEnd path.toList.reverse
  let name := (trimmed.takeWhile (· ≠ '/')).reverse
  if name = [] ∨ name = ['.'] ∨ name = ['.', '.'] then path
  else .ofList ((trimmed.dropWhile (· ≠ '/')).reverse ++ fileStem name) ++ ".toml.tmp"

/-- What a file holds, if it can be read as TOML. -/
inductive Content
  | document (doc : Table)
  | unreadable

/-- The files, by their directory entries; several paths may lead to one. -/
abbrev Disk (κ : Type) := κ → Option Content

/-- `load_document` -/
def Content.load : Option Content → Except EditError Table
  | none => .ok []
  | some (.document doc) => .ok doc
  | some .unreadable => .error (.bail "the file is not a document")

variable {κ : Type} (place : String → κ)

/-- `rename`, which does nothing where both are one entry. -/
def Disk.rename [DecidableEq κ] (fs : Disk κ) (x y : κ) : Disk κ :=
  if x = y then fs else assign (assign fs x none) y (fs x)

/-- `write_document`: the text goes to a temporary file, which gets the name of
the target; it is read back as it is on disk. -/
def writeDocument [DecidableEq κ] (path : String) (doc : Table) (fs : Disk κ) : Disk κ :=
  let tmp := place (tmpFile path)
  Disk.rename (assign fs tmp (some (.document (reloadEntries doc)))) tmp (place path)

/-- What a command that succeeds makes of the files. -/
def Call.apply [DecidableEq κ] (c : Call) (fs : Disk κ) : Except EditError (Disk κ) := do
  let sec ← c.cmd.target c.ctx.file.isSome
  let path ← targetPath c.discovered sec c.ctx
  let doc ← Content.load (fs (place path))
  let doc ← c.cmd.apply c.ctx.file.isSome doc
  .ok (writeDocument place path doc fs)

/-- What it would make of a document that is the whole configuration. -/
def Call.applyOne (c : Call) (doc : Table) : Except EditError Table := do
  let sec ← c.cmd.target c.ctx.file.isSome
  let _ ← targetPath c.discovered sec c.ctx
  let doc ← c.cmd.apply c.ctx.file.isSome doc
  .ok (reloadEntries doc)

/-- A command that bails out reports why, and leaves everything as it was. -/
def report {σ : Type} (s : σ) : Except EditError σ → Except EditError (Option String × σ)
  | .ok s' => .ok (none, s')
  | .error (.bail message) => .ok (some message, s)
  | .error .panic => .error .panic

/-- Commands one after another, with what each of them reports. -/
def runCalls {σ : Type} (apply : Call → σ → Except EditError σ) :
    σ → List Call → Except EditError (List (Option String) × σ)
  | s, [] => .ok ([], s)
  | s, c :: calls => do
      let (message, s) ← report s (apply c s)
      let (messages, s) ← runCalls apply s calls
      .ok (message :: messages, s)

/-! ## the union -/

/-- The document of a file; none is an empty one. -/
def docAt (fs : Disk κ) (x : κ) : Table :=
  match fs x with
  | some (.document doc) => doc
  | _ => []

/-- Where the machine file and its temporary one are; they are not the system
file or its temporary one. -/
structure Placement where
  machine : κ
  machineTmp : κ
  distinct : [machine, machineTmp, place SYSTEM_FILE, place (tmpFile SYSTEM_FILE)].Nodup

variable {place} (l : Placement place) {fs fs' : Disk κ}

/-- The file of a section. -/
def Placement.file (sec : String) : κ :=
  if sec = "machine" then l.machine else place SYSTEM_FILE

/-- The temporary file of it. -/
def Placement.tmp (sec : String) : κ :=
  if sec = "machine" then l.machineTmp else place (tmpFile SYSTEM_FILE)

/-- Both files in a row. -/
def Placement.merged (fs : Disk κ) : Table := docAt fs l.machine ++ docAt fs (place SYSTEM_FILE)

/-- One file is about `[machine]` alone, the other about everything else. -/
structure Divided (fs : Disk κ) : Prop where
  only : ∀ e ∈ docAt fs l.machine, e.1 = "machine"
  never : ∀ e ∈ docAt fs (place SYSTEM_FILE), e.1 ≠ "machine"
  good : ∀ sec, (docAt fs (l.file sec)).Good Standard
  readable : ∀ sec, fs (l.file sec) ≠ some .unreadable

/-- A command without `--file`, for the one machine. -/
structure Call.Plain (c : Call) : Prop where
  file : c.ctx.file = none
  explicit : ∀ dir, c.ctx.efiDir = some dir →
    place (machineFile dir) = l.machine ∧ place (tmpFile (machineFile dir)) = l.machineTmp
  found : ∀ dir, c.discovered = .ok dir →
    place (machineFile dir) = l.machine ∧ place (tmpFile (machineFile dir)) = l.machineTmp

/-- Other files are untouched, and temporary ones are at most gone. -/
def Untouched (fs fs' : Disk κ) : Prop :=
  ∀ x, x ≠ l.machine → x ≠ place SYSTEM_FILE → fs' x = fs x ∨
    fs' x = none ∧ (x = l.machineTmp ∨ x = place (tmpFile SYSTEM_FILE))

/-- The files are those of the configuration `doc`, up to the order of its
sections. -/
structure Holding (fs : Disk κ) (doc : Table) : Prop where
  divided : Divided l fs
  perm : doc.Perm (l.merged fs)

/-! ### writing -/

variable {l}

theorem docAt_of_eq {x : κ} (h : fs' x = fs x) : docAt fs' x = docAt fs x := by
  rw [docAt, docAt, h]

theorem docAt_of_document {x : κ} {doc : Table} (h : fs x = some (.document doc)) :
    docAt fs x = doc := by
  rw [docAt, h]

/-- A file that is readable is loaded. -/
theorem load_eq {x : κ} (h : fs x ≠ some .unreadable) :
    Content.load (fs x) = .ok (docAt fs x) := by
  rw [docAt]
  cases hx : fs x with
  | none => rfl
  | some content =>
      cases content with
      | document doc => rfl
      | unreadable => exact absurd hx h

namespace Placement

theorem machine_ne (l : Placement place) : l.machine ≠ place SYSTEM_FILE := by
  have hdistinct := l.distinct
  simp only [List.nodup_cons, List.mem_cons, not_or] at hdistinct
  exact hdistinct.1.2.1

/-- No file is the temporary one of a file. -/
theorem file_ne_tmp (l : Placement place) (sec sec' : String) : l.file sec ≠ l.tmp sec' := by
  have hdistinct := l.distinct
  simp only [List.nodup_cons, List.mem_cons, not_or] at hdistinct
  unfold file tmp
  split <;> split <;> grind

@[simp] theorem file_machine (l : Placement place) : l.file "machine" = l.machine := rfl

theorem file_of_ne (l : Placement place) {sec : String} (h : sec ≠ "machine") :
    l.file sec = place SYSTEM_FILE := if_neg h

/-- The section that stands for all others. -/
theorem file_other (l : Placement place) : l.file "" = place SYSTEM_FILE :=
  l.file_of_ne (by decide)

end Placement

section

variable [DecidableEq κ] {sec : String} {doc : Table}

/-- The files after one of them was written: its temporary one is gone. -/
def Placement.put (l : Placement place) (sec : String) (doc : Table) (fs : Disk κ) : Disk κ :=
  assign (assign fs (l.tmp sec) none) (l.file sec) (some (.document (reloadEntries doc)))

/-- A file is written by a rename. -/
theorem writeDocument_eq {path : String} (hpath : place path = l.file sec)
    (htmp : place (tmpFile path) = l.tmp sec) (doc : Table) (fs : Disk κ) :
    writeDocument place path doc fs = l.put sec doc fs := by
  have hne := (l.file_ne_tmp sec sec).symm
  rw [writeDocument, hpath, htmp, Disk.rename, if_neg hne, assign_self, Placement.put]
  congr 1
  funext x
  by_cases hx : x = l.tmp sec
  · rw [hx, assign_self, assign_self]
  · rw [assign_of_ne hx, assign_of_ne hx, assign_of_ne hx]

theorem docAt_put_self : docAt (l.put sec doc fs) (l.file sec) = reloadEntries doc :=
  docAt_of_document (assign_self _ _ _)

/-- The other file is left as it is. -/
theorem put_of_ne {sec' : String} (h : l.file sec' ≠ l.file sec) :
    l.put sec doc fs (l.file sec') = fs (l.file sec') := by
  rw [Placement.put, assign_of_ne h, assign_of_ne (l.file_ne_tmp sec' sec)]

/-- Writing one of the files touches no third one. -/
theorem put_untouched : Untouched l fs (l.put sec doc fs) := by
  intro x hmachine hsystem
  have hfile : x ≠ l.file sec := by
    unfold Placement.file
    split
    · exact hmachine
    · exact hsystem
  rw [Placement.put, assign_of_ne hfile]
  by_cases hx : x = l.tmp sec
  · refine Or.inr ⟨by rw [hx, assign_self], ?_⟩
    unfold Placement.tmp at hx
    split at hx
    · exact Or.inl hx
    · exact Or.inr hx
  · exact Or.inl (assign_of_ne hx)

end

/-! ### one section of the union -/

theorem reloadEntries_append (m s : Table) :
    reloadEntries (m ++ s) = reloadEntries m ++ reloadEntries s := by
  simp only [reloadEntries_eq, List.filterMap_append]

theorem reloadEntries_perm {doc doc' : Table} (h : doc.Perm doc') :
    (reloadEntries doc).Perm (reloadEntries doc') := by
  simp only [reloadEntries_eq]
  exact h.filterMap _

/-- Reading back adds no keys. -/
theorem key_reload {doc : Table} {e : String × Item} (h : e ∈ reloadEntries doc) :
    ∃ e' ∈ doc, e'.1 = e.1 := by
  rw [reloadEntries_eq] at h
  obtain ⟨e', he', hreload⟩ := List.mem_filterMap.mp h
  unfold reloadEntry at hreload
  split at hreload
  · cases hreload
  · cases hreload
    exact ⟨e', he', rfl⟩

/-- A written file is about the section, besides what it was about. -/
theorem Change.key_reload_on {sec : String} {doc : Table} (change : Change) {P : String → Prop}
    (hsec : P sec) (hdoc : ∀ e ∈ doc, P e.1) : ∀ e ∈ reloadEntries (change.on sec doc), P e.1 := by
  intro e he
  obtain ⟨e', he', heq⟩ := key_reload he
  rw [← heq]
  obtain hkey | hmem := change.key_on he'
  · rwa [hkey]
  · exact hdoc e' hmem

namespace Divided

/-- The system file has no machine section. -/
theorem lookup_machine (h : Divided l fs) :
    (docAt fs (place SYSTEM_FILE)).lookup "machine" = none := by
  rw [Assoc.lookup_eq_none_iff]
  intro hmem
  obtain ⟨e, he, heq⟩ := List.mem_map.mp hmem
  exact h.never e he heq

/-- The machine file has no other section. -/
theorem lookup_other (h : Divided l fs) {sec : String} (hsec : sec ≠ "machine") :
    (docAt fs l.machine).lookup sec = none := by
  rw [Assoc.lookup_eq_none_iff]
  intro hmem
  obtain ⟨e, he, heq⟩ := List.mem_map.mp hmem
  exact hsec (heq ▸ h.only e he)

/-- A section of the union is that of its file. -/
theorem lookup_merged (h : Divided l fs) (sec : String) :
    (l.merged fs).lookup sec = (docAt fs (l.file sec)).lookup sec := by
  rw [Placement.merged, List.lookup_append]
  by_cases hsec : sec = "machine"
  · rw [hsec, l.file_machine, h.lookup_machine, Option.or_none]
  · rw [l.file_of_ne hsec, h.lookup_other hsec, Option.none_or]

/-- The union has each key once. -/
theorem nodup_merged (h : Divided l fs) : ((l.merged fs).map Prod.fst).Nodup := by
  have hmachine := ((Table.good_iff _).mp (h.good "machine")).1
  have hsystem := ((Table.good_iff _).mp (h.good "")).1
  rw [l.file_machine] at hmachine
  rw [l.file_other] at hsystem
  rw [Placement.merged, List.map_append, List.nodup_append]
  refine ⟨hmachine, hsystem, fun k hk k' hk' heq => ?_⟩
  obtain ⟨e, he, rfl⟩ := List.mem_map.mp hk
  obtain ⟨e', he', rfl⟩ := List.mem_map.mp hk'
  exact h.never e' he' (heq.symm.trans (h.only e he))

variable [DecidableEq κ] {sec : String} {change : Change}

/-- A change of a section in its file keeps the files apart. -/
theorem put (h : Divided l fs)
    (hgood : Table.Good Standard (reloadEntries (change.on sec (docAt fs (l.file sec))))) :
    Divided l (l.put sec (change.on sec (docAt fs (l.file sec))) fs) where
  only := by
    rw [← l.file_machine]
    by_cases hsec : sec = "machine"
    · subst hsec
      rw [docAt_put_self]
      exact change.key_reload_on (P := (· = "machine")) rfl h.only
    · have hne : l.file "machine" ≠ l.file sec := by
        rw [l.file_machine, l.file_of_ne hsec]
        exact l.machine_ne
      rw [docAt_of_eq (put_of_ne hne)]
      exact h.only
  never := by
    by_cases hsec : sec = "machine"
    · have hne : l.file "" ≠ l.file sec := by
        rw [hsec, l.file_other, l.file_machine]
        exact l.machine_ne.symm
      rw [← l.file_other, docAt_of_eq (put_of_ne hne), l.file_other]
      exact h.never
    · rw [← l.file_of_ne hsec, docAt_put_self]
      refine change.key_reload_on (P := (· ≠ "machine")) hsec ?_
      rw [l.file_of_ne hsec]
      exact h.never
  good sec' := by
    by_cases hsec : l.file sec' = l.file sec
    · rwa [hsec, docAt_put_self]
    · rw [docAt_of_eq (put_of_ne hsec)]
      exact h.good sec'
  readable sec' := by
    by_cases hsec : l.file sec' = l.file sec
    · rw [hsec, Placement.put, assign_self]
      simp
    · rw [put_of_ne hsec]
      exact h.readable sec'

/-- What is done to a section in its file is done to the union. -/
theorem merged_put (h : Divided l fs) :
    (reloadEntries (change.on sec (l.merged fs))).Perm
      (l.merged (l.put sec (change.on sec (docAt fs (l.file sec))) fs)) := by
  have hmachine := (h.good "machine").reload_eq
  have hsystem := (h.good "").reload_eq
  rw [l.file_machine] at hmachine
  rw [l.file_other] at hsystem
  rw [Placement.merged, Placement.merged]
  by_cases hsec : sec = "machine"
  · subst hsec
    have hne : l.file "" ≠ l.file "machine" := by
      rw [l.file_other, l.file_machine]
      exact l.machine_ne.symm
    have hother : docAt (l.put "machine" (change.on "machine" (docAt fs (l.file "machine"))) fs)
        (l.file "") = docAt fs (l.file "") := docAt_of_eq (put_of_ne hne)
    have hself : docAt (l.put "machine" (change.on "machine" (docAt fs (l.file "machine"))) fs)
        (l.file "machine") = reloadEntries (change.on "machine" (docAt fs (l.file "machine"))) :=
      docAt_put_self
    rw [l.file_other] at hother
    simp only [l.file_machine] at hself hother ⊢
    rw [hself, hother]
    have hperm := reloadEntries_perm (change.on_append_left h.lookup_machine (docAt fs l.machine))
    rwa [reloadEntries_append, hsystem] at hperm
  · have hne : l.file "machine" ≠ l.file sec := by
      rw [l.file_machine, l.file_of_ne hsec]
      exact l.machine_ne
    have hother : docAt (l.put sec (change.on sec (docAt fs (l.file sec))) fs)
        (l.file "machine") = docAt fs (l.file "machine") := docAt_of_eq (put_of_ne hne)
    have hself : docAt (l.put sec (change.on sec (docAt fs (l.file sec))) fs) (l.file sec) =
        reloadEntries (change.on sec (docAt fs (l.file sec))) := docAt_put_self
    simp only [l.file_machine, l.file_of_ne hsec] at hself hother ⊢
    rw [hself, hother, change.on_append_right (h.lookup_other hsec), reloadEntries_append, hmachine]

end Divided

/-! ### one command -/

/-- A command that is safe succeeds or bails out. -/
theorem safe_cases {α : Type} {P : α → Prop} {x : Except EditError α} (h : Safe P x) :
    (∃ a, x = .ok a ∧ P a) ∨ ∃ message, x = .error (.bail message) := by
  cases x with
  | ok a => exact Or.inl ⟨a, rfl, h⟩
  | error e =>
      cases e with
      | bail message => exact Or.inr ⟨message, rfl⟩
      | panic => exact absurd rfl h

/-- Where a command writes. -/
theorem targetPath_safe {c : Call} (hc : c.Plain l) (sec : String) :
    Safe (fun path => place path = l.file sec ∧ place (tmpFile path) = l.tmp sec)
      (targetPath c.discovered sec c.ctx) := by
  simp only [targetPath, hc.file, Placement.file, Placement.tmp]
  split
  · cases hdir : c.ctx.efiDir with
    | some dir => exact hc.explicit dir hdir
    | none =>
        simp only
        split
        · cases hfound : c.discovered with
          | ok dir => exact hc.found dir hfound
          | error message => exact safe_bail message
        · exact safe_bail _
  · exact ⟨rfl, rfl⟩

variable [DecidableEq κ]

/-- A command does to the files what it does to their union, or bails out on
both with the same message. -/
theorem Call.apply_holding {c : Call} (hc : c.Plain l) {doc : Table} (h : Holding l fs doc) :
    (∃ fs' doc', c.apply place fs = .ok fs' ∧ c.applyOne doc = .ok doc' ∧
        Holding l fs' doc' ∧ Untouched l fs fs') ∨
      ∃ message, c.apply place fs = .error (.bail message) ∧
        c.applyOne doc = .error (.bail message) := by
  obtain ⟨hdiv, hperm⟩ := h
  rw [Call.apply, Call.applyOne, hc.file]
  obtain ⟨sec, hsec, habout⟩ | ⟨message, hmessage⟩ := safe_cases (target_safe false c.cmd)
  · obtain ⟨path, hpath, hfile, htmp⟩ | ⟨message, hmessage⟩ :=
      safe_cases (targetPath_safe hc sec)
    · simp only [Option.isSome_none, hsec, ok_bind, hpath, hfile, load_eq (hdiv.readable sec)]
      have hsafe := c.cmd.apply_safe (hdiv.good sec) false
      obtain ⟨r, hr⟩ := c.cmd.apply_local habout false ((docAt fs (l.file sec)).lookup sec)
      have hlookup : doc.lookup sec = (docAt fs (l.file sec)).lookup sec := by
        rw [Assoc.lookup_perm hperm hdiv.nodup_merged, hdiv.lookup_merged]
      have hhere : c.cmd.apply false (docAt fs (l.file sec)) =
          r.map (·.on sec (docAt fs (l.file sec))) := hr _ rfl
      have hone : c.cmd.apply false doc = r.map (·.on sec doc) := hr doc hlookup
      rw [hhere] at hsafe
      rw [hhere, hone]
      cases r with
      | error e =>
          cases e with
          | bail message => exact Or.inr ⟨message, rfl, rfl⟩
          | panic => exact absurd rfl hsafe
      | ok change =>
          refine Or.inl ⟨_, _, rfl, rfl, ?_, ?_⟩
          · rw [writeDocument_eq hfile htmp]
            have hon : (change.on sec doc).Perm (change.on sec (l.merged fs)) :=
              change.on_perm hperm hdiv.nodup_merged
            exact ⟨hdiv.put hsafe.1, (reloadEntries_perm hon).trans hdiv.merged_put⟩
          · rw [writeDocument_eq hfile htmp]
            exact put_untouched
    · refine Or.inr ⟨message, ?_, ?_⟩ <;> simp [hsec, ok_bind, hmessage] <;> rfl
  · refine Or.inr ⟨message, ?_, ?_⟩ <;> simp [hmessage] <;> rfl

omit [DecidableEq κ] in
/-- Two commands in a row. -/
theorem Untouched.trans {fs'' : Disk κ} (h : Untouched l fs fs') (h' : Untouched l fs' fs'') :
    Untouched l fs fs'' := by
  intro x hmachine hsystem
  obtain hsame' | hgone := h' x hmachine hsystem
  · rw [hsame']
    exact h x hmachine hsystem
  · exact Or.inr hgone

/-! ## every run -/

/-- A sequence is its first command and the rest. -/
theorem runCalls_cons {σ : Type} {apply : Call → σ → Except EditError σ} {s s₁ s₂ : σ} {c : Call}
    {calls : List Call} {message : Option String} {messages : List (Option String)}
    (h : report s (apply c s) = .ok (message, s₁))
    (hrest : runCalls apply s₁ calls = .ok (messages, s₂)) :
    runCalls apply s (c :: calls) = .ok (message :: messages, s₂) := by
  simp only [runCalls, h, ok_bind, hrest]

/-- The files and their union under a sequence of commands. -/
theorem runCalls_holding {calls : List Call} (hcalls : ∀ c ∈ calls, c.Plain l) {doc : Table}
    (h : Holding l fs doc) :
    ∃ messages fs' doc', runCalls (Call.apply place) fs calls = .ok (messages, fs') ∧
      runCalls Call.applyOne doc calls = .ok (messages, doc') ∧ Holding l fs' doc' ∧
      Untouched l fs fs' := by
  induction calls generalizing fs doc with
  | nil => exact ⟨[], fs, doc, rfl, rfl, h, fun _ _ _ => Or.inl rfl⟩
  | cons c calls ih =>
      obtain ⟨hc, hrest⟩ := List.forall_mem_cons.mp hcalls
      obtain ⟨fs₁, doc₁, happly, hone, hholding, huntouched⟩ | ⟨message, happly, hone⟩ :=
        Call.apply_holding hc h
      · obtain ⟨messages, fs', doc', hruns, hruns', hholding', huntouched'⟩ := ih hrest hholding
        refine ⟨none :: messages, fs', doc', ?_, ?_, hholding', huntouched.trans huntouched'⟩
        · exact runCalls_cons (by rw [happly]; rfl) hruns
        · exact runCalls_cons (by rw [hone]; rfl) hruns'
      · obtain ⟨messages, fs', doc', hruns, hruns', hholding', huntouched'⟩ := ih hrest h
        refine ⟨some message :: messages, fs', doc', ?_, ?_, hholding', huntouched'⟩
        · exact runCalls_cons (by rw [happly]; rfl) hruns
        · exact runCalls_cons (by rw [hone]; rfl) hruns'

/-- A text of a document that is empty or starts with a header, and has no
byte-order mark. -/
def Prints (R : Reader) (text : String) (doc : Table) : Prop :=
  ∃ stmts, R.statements text = some stmts ∧ document stmts = some (entriesToValue doc) ∧
    startsWithMark text = false ∧ startsWithKeyval stmts = false

/-- The tree of a union is the union of the trees. -/
theorem tree_append (m s : Table) :
    tree (m ++ s) = .table (entriesToValue m ++ entriesToValue s) := by
  simp only [tree, entriesToValue_eq, List.map_append]

omit [DecidableEq κ] in
/-- `load` reads the union of the files. -/
theorem Divided.load (h : Divided l fs) {R : Reader} {machineText systemText : String}
    (hmachine : Prints R machineText (docAt fs l.machine))
    (hsystem : Prints R systemText (docAt fs (place SYSTEM_FILE))) :
    loadFromPaths R (some systemText) (some machineText) =
      Config.fromToml (tree (l.merged fs)) := by
  obtain ⟨a, ha, hm, -, -⟩ := hmachine
  obtain ⟨b, hb, hs, hmark, hkeyval⟩ := hsystem
  have hunion : R.parse (machineText ++ "\n" ++ systemText) =
      some (entriesToValue (docAt fs l.machine) ++
        entriesToValue (docAt fs (place SYSTEM_FILE))) := by
    refine (R.parse_concat_iff ha hb hm hs ?_).mpr ⟨hmark, Or.inr hkeyval⟩
    intro k hk hk'
    simp only [keys, entriesToValue_eq, List.map_map, List.mem_map] at hk hk'
    obtain ⟨e, he, rfl⟩ := hk
    obtain ⟨e', he', heq⟩ := hk'
    exact h.never e' he' (heq.trans (h.only e he))
  rw [loadFromPaths, readOptional, readOptional, Option.getD_some, Option.getD_some, hunion,
    Option.bind_some, Placement.merged, tree_append]

/-- **Two files, one configuration.**  Commands without `--file` keep `[machine]`
and the rest in files of their own and touch no third one, except that the
temporary files are gone afterwards.  They report what they would report on one
document, which is the union of both files, and leave the union as they would
leave that; it is what `load` reads. -/
theorem calls_refine {calls : List Call} (hcalls : ∀ c ∈ calls, c.Plain l)
    (hdiv : Divided l fs) :
    ∃ messages fs' doc', runCalls (Call.apply place) fs calls = .ok (messages, fs') ∧
      runCalls Call.applyOne (l.merged fs) calls = .ok (messages, doc') ∧
      doc'.Perm (l.merged fs') ∧ Divided l fs' ∧ Untouched l fs fs' ∧
      ∀ (R : Reader) (machineText systemText : String),
        Prints R machineText (docAt fs' l.machine) →
        Prints R systemText (docAt fs' (place SYSTEM_FILE)) →
          loadFromPaths R (some systemText) (some machineText) =
            Config.fromToml (tree (l.merged fs')) := by
  obtain ⟨messages, fs', doc', hruns, hone, ⟨hdiv', hperm⟩, huntouched⟩ :=
    runCalls_holding hcalls ⟨hdiv, List.Perm.refl _⟩
  exact ⟨messages, fs', doc', hruns, hone, hperm, hdiv', huntouched, fun R _ _ => hdiv'.load⟩

/-- Files by their paths, with the EFI partition at `/efi`. -/
def efiPlacement : Placement (id : String → String) :=
  ⟨"/efi/zebrafish.toml", "/efi/zebrafish.toml.tmp", by decide⟩

/-- A command of an administrator. -/
def onEfi (cmd : Command) : Call := ⟨⟨false, some "/efi", none⟩, .error "", cmd⟩

/-- A new machine; the second interface is not there yet. -/
def newMachine : List Call :=
  [onEfi (.set "machine.id" "a71d0f9a"), onEfi (.set "hostname.name" "web1"), onEfi (.add "wg"),
    onEfi (.set "wg[1].name" "wg1")]

/-- `set` on one document, with the place of its file known. -/
theorem applyOne_onEfi {key : String} {path : KeyPath} (hparse : KeyPath.parse key = some path)
    {sec : String} (hsec : path.section? = some sec) (value : String) (doc : Table) :
    (onEfi (.set key value)).applyOne doc =
      (applySet doc path.segments value).map reloadEntries := by
  have hwritable : ∀ refusal, writablePath false key refusal = .ok path := by
    simp [writablePath, hparse, hsec]
  have htarget : ∃ file, targetPath (.error "") sec ⟨false, some "/efi", none⟩ = .ok file := by
    simp only [targetPath]
    split <;> exact ⟨_, rfl⟩
  obtain ⟨file, htarget⟩ := htarget
  simp only [onEfi, Call.applyOne, Command.target, Command.apply, Option.isSome_none, hwritable,
    ok_bind, hsec, unwrapped, htarget]
  cases applySet doc path.segments value <;> rfl

theorem runCalls_newMachine : runCalls Call.applyOne [] newMachine =
    .ok ([none, none, none, some "index 1 out of range for [wg] (length 1)"],
      [("machine", .table [("id", .value (.string "a71d0f9a"))]),
        ("hostname", .table [("name", .value (.string "web1"))]),
        ("wg", .arrayOfTables [[]])]) := by
  have hmachine : KeyPath.parse "machine.id" =
      some ⟨[.field "machine", .field "id"], by simp⟩ := by decide +kernel
  have hhostname : KeyPath.parse "hostname.name" =
      some ⟨[.field "hostname", .field "name"], by simp⟩ := by decide +kernel
  have hwg : KeyPath.parse "wg[1].name" =
      some ⟨[.field "wg", .index 1, .field "name"], by simp⟩ := by decide +kernel
  simp only [newMachine, runCalls, applyOne_onEfi hmachine rfl, applyOne_onEfi hhostname rfl,
    applyOne_onEfi hwg rfl]
  rfl

theorem calls_refine_new :
    ∃ fs', runCalls (Call.apply id) (fun _ => none) newMachine =
        .ok ([none, none, none, some "index 1 out of range for [wg] (length 1)"], fs') ∧
      Divided efiPlacement fs' ∧
      (efiPlacement.merged fs').Perm [("machine", .table [("id", .value (.string "a71d0f9a"))]),
        ("hostname", .table [("name", .value (.string "web1"))]), ("wg", .arrayOfTables [[]])] := by
  have hplain : ∀ cmd, (onEfi cmd).Plain efiPlacement := by
    refine fun cmd => ⟨rfl, ?_, ?_⟩
    · rintro dir ⟨⟩
      decide
    · rintro dir ⟨⟩
  have hempty : Divided efiPlacement fun _ => none :=
    ⟨by simp [docAt], by simp [docAt], fun _ => Table.good_nil, by simp⟩
  have hcalls : ∀ c ∈ newMachine, c.Plain efiPlacement := by simp [newMachine, hplain]
  obtain ⟨messages, fs', doc', hrun, hone, hperm, hdiv, -⟩ := calls_refine hcalls hempty
  cases hone.symm.trans runCalls_newMachine
  exact ⟨fs', hrun, hdiv, hperm.symm⟩

end Zebrafish.ConfigTool
