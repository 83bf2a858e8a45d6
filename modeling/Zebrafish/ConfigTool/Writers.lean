import Mathlib.Data.List.Nodup
import Zebrafish.Lib.Run
import Zebrafish.ConfigTool.Store

/-!
# Zebrafish.ConfigTool.Writers

Several commands at work on one file.  Nothing orders their steps, and all of
them use the same temporary file.

A change is lost when a process reads the file between another's read and its
rename (`change_lost`).  In runs where this never happens (`Undisturbed`) at
most one process is busy at a time, and the file is at every moment what the
commands that have renamed so far make of it one after the other
(`serial_invariant`).
-/

namespace Zebrafish.ConfigTool

open Files

/-- Processes over one file system. -/
structure World (ι : Type) where
  procs : ι → Proc
  fs : Fs Entry

/-- All processes before their first step. -/
def World.init {ι : Type} (fs : Fs Entry) : World ι := ⟨fun _ => .start, fs⟩

variable {ι : Type}

/-- Any one process takes a step. -/
inductive World.Step [DecidableEq ι] (T : TomlEdit) (jobs : ι → Job) (path : FilePath) :
    World ι → World ι → Prop
  | step {w : World ι} {p : Proc} {fs : Fs Entry} (i : ι)
      (h : ConfigTool.Step T (jobs i) path (w.procs i) w.fs p fs) :
      World.Step T jobs path w ⟨assign w.procs i p, fs⟩

/-- No process reads the file while another is between its read and its
rename. -/
def Undisturbed (w w' : World ι) : Prop :=
  ∀ i, (w.procs i).busy = false → (w'.procs i).busy = true → ∀ j, (w.procs j).busy = false

/-- Runs in which every step meets a condition. -/
abbrev World.Runs [DecidableEq ι] (T : TomlEdit) (jobs : ι → Job) (path : FilePath)
    (cond : World ι → World ι → Prop) : World ι → World ι → Prop :=
  Run (World.Step T jobs path) cond

/-- The file after some commands, one after the other; none if one of them
ends in an error. -/
def serial (T : TomlEdit) (jobs : ι → Job) (content : Option Bytes) (order : List ι) :
    Option (Option Bytes) :=
  order.foldlM (fun content i => (exec T (jobs i) content).map some) content

/-- The file is the result of a serial run of the commands that have renamed. -/
def Serial (T : TomlEdit) (jobs : ι → Job) (path : FilePath) (content : Option Bytes)
    (w : World ι) : Prop :=
  ∃ order : List ι, order.Nodup ∧ (∀ i, i ∈ order ↔ (w.procs i).landed = true) ∧
    serial T jobs content order = some (w.fs.read path.entry)

structure World.Inv (T : TomlEdit) (jobs : ι → Job) (path : FilePath) (content : Option Bytes)
    (w : World ι) : Prop where
  holds : ∀ i, Holds T (jobs i) path (w.procs i) w.fs
  alone : ∀ i j, (w.procs i).busy = true → (w.procs j).busy = true → i = j
  serial : Serial T jobs path content w

variable {T : TomlEdit} {jobs : ι → Job} {path : FilePath} {content : Option Bytes}
  {w w' : World ι}

/-- A process that is not busy leaves the files alone. -/
theorem Step.idle {job : Job} {p p' : Proc} {fs fs' : Fs Entry}
    (h : ConfigTool.Step T job path p fs p' fs') (hp : p.busy = false) : fs' = fs := by
  cases h with
  | load => rfl
  | create => cases hp
  | write => cases hp
  | close => rfl
  | rename => cases hp
  | exit => rfl
  | fail => rfl
  | kill => rfl

/-- While a process is busy, no other is. -/
theorem World.Inv.others_idle (h : w.Inv T jobs path content) {i j : ι} (hj : j ≠ i)
    (hi : (w.procs i).busy = true) : (w.procs j).busy = false := by
  by_contra hbusy
  exact hj (h.alone j i (by simpa using hbusy) hi)

/-- A process whose rename is the step becomes the latest in the order. -/
theorem Serial.step [DecidableEq ι] (h : Serial T jobs path content w) {i : ι} {p : Proc}
    {fs : Fs Entry} (heffect : Effect T (jobs i) path (w.procs i) w.fs p fs) :
    Serial T jobs path content ⟨assign w.procs i p, fs⟩ := by
  obtain ⟨order, hnodup, hmem, hserial⟩ := h
  rcases heffect with ⟨hread, hland⟩ | ⟨_, rfl, hland, text, hexec, hread⟩
  · refine ⟨order, hnodup, ?_, by rw [hread]; exact hserial⟩
    intro j
    by_cases hj : j = i
    · subst hj
      simp [hmem, hland]
    · simp [hmem, hj]
  · have hnot : i ∉ order := by
      rw [hmem, hland]
      exact Bool.false_ne_true
    refine ⟨order ++ [i], ?_, ?_, ?_⟩
    · rw [List.nodup_append]
      refine ⟨hnodup, List.nodup_singleton i, ?_⟩
      intro a ha b hb
      rw [List.mem_singleton.mp hb]
      exact fun heq => hnot (heq ▸ ha)
    · intro j
      by_cases hj : j = i
      · subst hj
        simp [Proc.landed]
      · simp [hj, hmem]
    · unfold serial at hserial ⊢
      rw [List.foldlM_append, hserial]
      simp [hexec, hread]

/-- An undisturbed step keeps the invariant. -/
theorem World.Inv.step [DecidableEq ι] (h : w.Inv T jobs path content)
    (hstep : World.Step T jobs path w w') (hcond : Undisturbed w w') :
    w'.Inv T jobs path content := by
  cases hstep with
  | @step p fs i hstep =>
      obtain ⟨hholds, heffect⟩ := hstep.effect (h.holds i)
      refine ⟨?_, ?_, h.serial.step heffect⟩
      · intro j
        by_cases hj : j = i
        · subst hj
          simpa using hholds
        simp only [assign_of_ne hj]
        -- either nothing happened to the files, or `j` is idle
        cases hbusy : (w.procs i).busy with
        | false =>
            rw [hstep.idle hbusy]
            exact h.holds j
        | true => exact holds_of_not_busy (h.others_idle hj hbusy)
      · have hidle : ∀ j, j ≠ i → p.busy = true → (w.procs j).busy = false := by
          intro j hj hp
          cases hbusy : (w.procs i).busy with
          | false => exact hcond i hbusy (by simpa using hp) j
          | true => exact h.others_idle hj hbusy
        intro j k hj hk
        by_cases hji : j = i <;> by_cases hki : k = i
        · rw [hji, hki]
        · subst hji
          simp only [assign_self, assign_of_ne hki] at hj hk
          rw [hidle k hki hj] at hk
          cases hk
        · subst hki
          simp only [assign_self, assign_of_ne hji] at hj hk
          rw [hidle j hji hk] at hj
          cases hj
        · simp only [assign_of_ne hji, assign_of_ne hki] at hj hk
          exact h.alone j k hj hk

/-- At first, no process knows anything. -/
theorem World.Inv.init (fs : Fs Entry) :
    (World.init fs : World ι).Inv T jobs path (fs.read path.entry) where
  holds := fun _ => trivial
  alone := fun i j hi => by cases hi
  serial := ⟨[], List.nodup_nil, fun i => by simp [World.init, Proc.landed], rfl⟩

/-- The invariant holds in every state reached. -/
theorem serial_invariant [DecidableEq ι] {fs₀ : Fs Entry}
    (hrun : World.Runs T jobs path Undisturbed (World.init fs₀) w) :
    w.Inv T jobs path (fs₀.read path.entry) :=
  Run.invariant (World.Inv.init fs₀) (fun _ _ h hstep hcond => h.step hstep hcond) hrun

/-! ## two commands -/

/-- Both orders of two. -/
theorem order_cases {order : List Bool} (hnodup : order.Nodup) (hall : ∀ i, i ∈ order) :
    order = [false, true] ∨ order = [true, false] := by
  have hf := hall false
  have ht := hall true
  match order, hnodup with
  | [], _ => cases hf
  | [a], _ =>
      rw [List.mem_singleton] at hf ht
      rw [← hf] at ht
      cases ht
  | [a, b], _ => cases a <;> cases b <;> simp_all
  | a :: b :: c :: rest, hnodup => cases a <;> cases b <;> cases c <;> simp_all

/-- **Two commands.**  In a run in which neither command reads the file between
the other's read and its rename, the file is at every moment what the commands
that have renamed make of it one after the other; when both succeed it is the
result of one of the two orders. -/
theorem writers_serial (T : TomlEdit) (jobs : Bool → Job) (path : FilePath) (fs₀ : Fs Entry)
    (w : World Bool) (hrun : World.Runs T jobs path Undisturbed (World.init fs₀) w) :
    Serial T jobs path (fs₀.read path.entry) w ∧
      ((∀ i, w.procs i = .succeeded) →
        serial T jobs (fs₀.read path.entry) [false, true] = some (w.fs.read path.entry) ∨
          serial T jobs (fs₀.read path.entry) [true, false] = some (w.fs.read path.entry)) := by
  have hserial := (serial_invariant hrun).serial
  refine ⟨hserial, fun hall => ?_⟩
  obtain ⟨order, hnodup, hmem, hresult⟩ := hserial
  have hin : ∀ i, i ∈ order := fun i => by rw [hmem, hall]; rfl
  rcases order_cases hnodup hin with rfl | rfl
  · exact Or.inl hresult
  · exact Or.inr hresult

/-! ### runs of two -/

/-- What one process does by itself is a run of all, undisturbed when the
others are idle. -/
theorem World.runs_of_runs [DecidableEq ι] {i : ι} {w₀ w : World ι}
    {cond : World ι → World ι → Prop} (h : World.Runs T jobs path cond w₀ w) {p : Proc}
    {fs : Fs Entry} (hrun : ConfigTool.Runs T (jobs i) path (w.procs i, w.fs) (p, fs))
    (hcond : ∀ p fs p' fs', cond ⟨assign w.procs i p, fs⟩ ⟨assign w.procs i p', fs'⟩) :
    World.Runs T jobs path cond w₀ ⟨assign w.procs i p, fs⟩ := by
  have hassign : ∀ p p', assign (assign w.procs i p) i p' = assign w.procs i p' := by
    intro p p'
    funext j
    by_cases hj : j = i <;> simp [assign, hj]
  generalize hs : (p, fs) = s at hrun
  induction hrun generalizing p fs with
  | refl =>
      cases hs
      have hself : assign w.procs i (w.procs i) = w.procs := by
        funext j
        by_cases hj : j = i
        · subst hj
          simp
        · simp [hj]
      rw [hself]
      exact h
  | @tail s s' _ hstep ih =>
      obtain ⟨q, g⟩ := s
      cases hs
      have hworld : World.Step T jobs path ⟨assign w.procs i q, g⟩ ⟨assign w.procs i p, fs⟩ := by
        have hone := World.Step.step (w := ⟨assign w.procs i q, g⟩) i
          (show ConfigTool.Step T (jobs i) path (assign w.procs i q i) g p fs by
            rw [assign_self]; exact hstep)
        rwa [hassign] at hone
      exact (ih rfl).snoc hworld (hcond q g p fs)

theorem undisturbed_of_idle [DecidableEq ι] {i : ι} (h : ∀ j, j ≠ i → (w.procs j).busy = false)
    (p : Proc) (fs : Fs Entry) (p' : Proc) (fs' : Fs Entry) :
    Undisturbed (⟨assign w.procs i p, fs⟩ : World ι) ⟨assign w.procs i p', fs'⟩ := by
  intro k hk hk' j
  by_cases hki : k = i
  · subst hki
    by_cases hj : j = k
    · subst hj
      exact hk
    · simpa [hj] using h j hj
  · simp only [assign_of_ne hki] at hk hk'
    rw [hk] at hk'
    cases hk'

/-- `add wg` and `add nbd-client`. -/
def twoAdds (i : Bool) : Job := addJob (if i then "nbd-client" else "wg")

/-- One after the other, both are there. -/
theorem writers_serial_two_adds :
    ∃ w, World.Runs headersOnly twoAdds systemFile Undisturbed (World.init noFiles) w ∧
      (∀ i, w.procs i = .succeeded) ∧
      (serial headersOnly twoAdds none [false, true] = some (w.fs.read systemFile.entry) ∨
        serial headersOnly twoAdds none [true, false] = some (w.fs.read systemFile.entry)) := by
  have hwg : exec headersOnly (twoAdds false) (noFiles.read systemFile.entry) =
      some (headerText "wg") := exec_add_wg
  obtain ⟨fs₁, hrun₁, hread₁⟩ := runs_of_exec hwg
  have hw₁ := World.runs_of_runs (w := World.init noFiles) .refl hrun₁
    (undisturbed_of_idle fun _ _ => rfl)
  have hnbd : exec headersOnly (twoAdds true) (fs₁.read systemFile.entry) =
      some (headerText "wg" ++ [10] ++ headerText "nbd-client") := by
    rw [hread₁]
    decide +kernel
  obtain ⟨fs₂, hrun₂, _⟩ := runs_of_exec hnbd
  have hw₂ := World.runs_of_runs hw₁ hrun₂ (undisturbed_of_idle fun j hj => by
    rw [Bool.eq_false_of_not_eq_true hj]
    rfl)
  have hall : ∀ i, (assign (assign (World.init noFiles : World Bool).procs false .succeeded) true
      .succeeded) i = .succeeded := by
    intro i
    cases i <;> rfl
  exact ⟨_, hw₂, hall,
    (writers_serial headersOnly twoAdds systemFile noFiles _ hw₂).2 hall⟩

/-- Read by both before either writes, the file ends up without the first
command's change, though both succeed. -/
theorem change_lost :
    ∃ w, World.Runs headersOnly twoAdds systemFile (fun _ _ => True) (World.init noFiles) w ∧
      (∀ i, w.procs i = .succeeded) ∧
      w.fs.read systemFile.entry = some (headerText "nbd-client") ∧
      serial headersOnly twoAdds none [false, true] ≠ some (w.fs.read systemFile.entry) ∧
      serial headersOnly twoAdds none [true, false] ≠ some (w.fs.read systemFile.entry) := by
  have hwg : exec headersOnly (twoAdds false) (noFiles.read systemFile.entry) =
      some (headerText "wg") := exec_add_wg
  have hnbd : exec headersOnly (twoAdds true) (noFiles.read systemFile.entry) =
      some (headerText "nbd-client") := by decide +kernel
  have hinit : World.Runs headersOnly twoAdds systemFile (fun _ _ => True) (World.init noFiles)
      (World.init noFiles) := .refl
  have hw₁ := World.runs_of_runs (i := false) hinit (ConfigTool.Runs.refl.step (.load hwg))
    fun _ _ _ _ => trivial
  have hw₂ := World.runs_of_runs (i := true) hw₁ (ConfigTool.Runs.refl.step (.load hnbd))
    fun _ _ _ _ => trivial
  obtain ⟨fs₁, hrun₁, _⟩ :=
    runs_of_ready headersOnly (twoAdds false) systemFile (headerText "wg") noFiles
  have hw₃ := World.runs_of_runs (i := false) hw₂ hrun₁ fun _ _ _ _ => trivial
  obtain ⟨fs₂, hrun₂, hread₂⟩ :=
    runs_of_ready headersOnly (twoAdds true) systemFile (headerText "nbd-client") fs₁
  have hw₄ := World.runs_of_runs (i := true) hw₃ hrun₂ fun _ _ _ _ => trivial
  refine ⟨_, hw₄, fun i => by cases i <;> rfl, hread₂, ?_, ?_⟩ <;> rw [hread₂] <;>
    decide +kernel

end Zebrafish.ConfigTool
