import Zebrafish.Lib.Trace
import Zebrafish.System.Credentials

/-!
# Zebrafish.System.Sections

What scripts of `init.d` have in common.

A script is started, stopped or restarted, and `run_onVerb` says what it does
then, given what its two halves do.  A section that is a list of tables it reads
by asking whether it is there, evaluating it and taking its length from a
variable; `evalSection_spec` says what the variables are after that, in a shell
that may have evaluated sections of the same configuration before.
-/

namespace Zebrafish.System

open Toml Shell ConfigTool Credentials

/-! ## verbs -/

inductive Verb
  | start | stop | restart

section

variable {Cmd : Type} {Ans : Cmd → Type}

open Script (Event World)

/-- The `case` at the end of a script: what it does in a shell with some
variables. -/
def onVerb (start : Env → Option (Script Ans Unit)) (stop : Env → Option (Script Ans Unit × Env))
    (pause : Script Ans Unit) (vars : Env) : Verb → Option (Script Ans Unit)
  | .start => start vars
  | .stop => do
      let (stopping, _) ← stop vars
      pure stopping
  | .restart => do
      let (stopping, vars) ← stop vars
      let starting ← start vars
      pure do
        stopping
        pause
        starting

/-- Its events, given those of its parts. -/
def Serves (Starts Stops Pauses : List (Event Ans) → Prop) : Verb → List (Event Ans) → Prop
  | .start, events => Starts events
  | .stop, events => Stops events
  | .restart, events => ∃ stopped paused started, events = stopped ++ (paused ++ started) ∧
      Stops stopped ∧ Pauses paused ∧ Starts started

/-- **A script of `init.d`**, whose halves keep to `I` in the shell. -/
theorem run_onVerb {start : Env → Option (Script Ans Unit)}
    {stop : Env → Option (Script Ans Unit × Env)} {pause : Script Ans Unit} {I : Env → Prop}
    {Starts Stops Pauses : List (Event Ans) → Prop}
    (hstart : ∀ vars, I vars → ∃ p, start vars = some p ∧ p.Emits fun _ => Starts)
    (hstop : ∀ vars, I vars →
      ∃ p vars', stop vars = some (p, vars') ∧ (p.Emits fun _ => Stops) ∧ I vars')
    (hpause : pause.Emits fun _ => Pauses) {vars : Env} (hvars : I vars) (verb : Verb)
    (w : World Ans) :
    ∃ p events, onVerb start stop pause vars verb = some p ∧ (p.run w []).2 = events.reverse ∧
      Serves Starts Stops Pauses verb events := by
  have hemits : ∃ p, onVerb start stop pause vars verb = some p ∧
      p.Emits fun _ => Serves Starts Stops Pauses verb := by
    cases verb with
    | start => exact hstart vars hvars
    | stop =>
        obtain ⟨stopping, _, heq, hstops, -⟩ := hstop vars hvars
        exact ⟨stopping, by rw [onVerb, heq]; rfl, hstops⟩
    | restart =>
        obtain ⟨stopping, vars', heq, hstops, hvars'⟩ := hstop vars hvars
        obtain ⟨starting, heq', hstarts⟩ := hstart vars' hvars'
        refine ⟨do stopping; pause; starting, ?_, ?_⟩
        · simp only [onVerb, heq, heq', Option.bind_eq_bind, Option.bind_some]
          rfl
        · simp only [Script.emits_bind]
          exact hstops.mono fun _ stopped hstopped => hpause.mono fun _ paused hpaused =>
            hstarts.mono fun _ started hstarted =>
              ⟨stopped, paused, started, rfl, hstopped, hpaused, hstarted⟩
  obtain ⟨p, hp, hserves⟩ := hemits
  obtain ⟨events, hrun, hevents⟩ := Script.run_of_emits w hserves []
  exact ⟨p, events, hp, by rw [hrun, List.append_nil], hevents⟩

end

/-! ## what a script reads -/

/-- `if zf_has_present <sec>; then eval "$(…)"; count=${<countVar>:-0}; fi`, where
`count` is 0 before. -/
def evalSection (D : Display) (c : Config) (sec countVar : String) (vars : Env) :
    Option (Nat × Env) :=
  if zfHasPresent D c sec then do
    let vars ← evalOutput vars (listOutput D c sec)
    pure (number (derefOr vars countVar "0"), vars)
  else pure (0, vars)

/-! ## what a shell knows -/

/-- Nothing in a shell says other than the configuration. -/
def Plain (D : Display) (c : Config) (vars : Env) : Prop :=
  ∀ path count, HasSlot Config.ty path count →
    valueOf vars (varName path count) = none ∨
      valueOf vars (varName path count) = textAt D path c

/-- A shell knows all of a section. -/
def Sees (D : Display) (c : Config) (sec : String) (vars : Env) : Prop :=
  ∀ path count, HasSlot Config.ty path count → path.head? = some (.field sec) →
    valueOf vars (varName path count) = textAt D path c

section

variable {D : Display} {c : Config} {vars : Env}

theorem Plain.nil : Plain D c [] := fun _ _ _ => Or.inl rfl

/-- Evaluating a section keeps the shell plain. -/
theorem Plain.eval (h : Plain D c vars) (sec : String) :
    Plain D c (vars ++ sectionVars D c sec) := by
  intro path count hslot
  rw [valueOf_append, valueOf_sectionVars D c sec hslot]
  split
  · cases htext : textAt D path c with
    | none => simpa [htext] using h path count hslot
    | some text => simp
  · simpa using h path count hslot

/-- After that, its variables are those of the configuration. -/
theorem Plain.sees (h : Plain D c vars) (sec : String) :
    Sees D c sec (vars ++ sectionVars D c sec) := by
  intro path count hslot hhead
  rw [valueOf_append, valueOf_sectionVars D c sec hslot, if_pos hhead]
  rcases h path count hslot with hnone | hold
  · rw [hnone, Option.or_none]
  · rw [hold, Option.or_self]

/-- Other sections do not disturb them. -/
theorem Sees.eval {sec : String} (h : Sees D c sec vars) (other : String) :
    Sees D c sec (vars ++ sectionVars D c other) := by
  intro path count hslot hhead
  rw [valueOf_append, valueOf_sectionVars D c other hslot, h path count hslot hhead]
  split <;> simp

end

/-! ## lists of tables -/

/-- The section `sec` of a configuration is the list `l`; it is left out when
that is empty. -/
structure ListSection {β : Type} (c : Config) (sec : String) (codec : Codec β) (l : List β) :
    Prop where
  parse : KeyPath.parse sec = some ⟨[.field sec], List.cons_ne_nil _ _⟩
  slot : HasSlot Config.ty [.field sec] true
  walk : ∀ tail, walkSegments (.field sec :: tail) c.view =
    (if l.isEmpty then none else some (codec.array.ser l)).bind (walkSegments tail)

namespace ListSection

variable {β : Type} {D : Display} {c : Config} {sec countVar : String} {codec : Codec β}
  {l : List β} {vars : Env}

/-- A section is there just if it has an element. -/
theorem zfHasPresent_iff (h : ListSection c sec codec l) :
    zfHasPresent D c sec = true ↔ l ≠ [] := by
  have hwalk := h.walk []
  have hparse := h.parse
  cases l with
  | nil => simp_all [zfHasPresent, getKey, KeyPath.lookup]
  | cons b l => simp_all [zfHasPresent, getKey, KeyPath.lookup, walkSegments]

/-- A section that is not there is known. -/
theorem sees_of_nil (h : ListSection c sec codec l) (hl : l = []) (hvars : Plain D c vars) :
    Sees D c sec vars := by
  intro path count hslot hhead
  obtain ⟨tail, rfl⟩ : ∃ tail, path = .field sec :: tail := by
    cases path with
    | nil => cases hhead
    | cons seg tail => exact ⟨tail, by simpa using hhead⟩
  have hnone : textAt D (.field sec :: tail) c = none := by
    simp [textAt, textIn, h.walk, hl]
  rcases hvars _ _ hslot with hold | hold
  · rw [hold, hnone]
  · exact hold

/-- The count is the number of its elements. -/
theorem count_eq (h : ListSection c sec codec l) (hsees : Sees D c sec vars) :
    number (derefOr vars (varName [.field sec] true) "0") = l.length := by
  rw [derefOr, hsees _ _ h.slot rfl, textAt, textIn_count D h.walk, number_length]

/-- A variable has the text of its element's field. -/
theorem valueOf_element (h : ListSection c sec codec l) (hsees : Sees D c sec vars) (i : Nat)
    {k : String} (hslot : HasSlot Config.ty [.field sec, .index i, .field k] false) :
    valueOf vars (varName [.field sec, .index i, .field k] false) =
      l[i]?.bind fun b => textIn D [.field k] (codec.ser b) := by
  rw [hsees _ _ hslot rfl, textAt, textIn_element D h.walk]

/-- **What a script reads.** -/
theorem evalSection_spec (h : ListSection c sec codec l)
    (hcount : varName [.field sec] true = countVar) (hvars : Plain D c vars) :
    ∃ vars', evalSection D c sec countVar vars = some (l.length, vars') ∧ Plain D c vars' ∧
      Sees D c sec vars' ∧ ∀ other, Sees D c other vars → Sees D c other vars' := by
  by_cases hl : l = []
  · have habsent : ¬ zfHasPresent D c sec = true := by simp [h.zfHasPresent_iff, hl]
    exact ⟨vars, by simp [evalSection, habsent, hl], hvars, h.sees_of_nil hl hvars,
      fun _ => id⟩
  · have hpresent := (h.zfHasPresent_iff (D := D)).mpr hl
    have hread := h.count_eq (hvars.sees sec)
    rw [hcount] at hread
    refine ⟨vars ++ sectionVars D c sec, ?_, hvars.eval sec, hvars.sees sec,
      fun _ hother => hother.eval sec⟩
    simp [evalSection, hpresent, evalOutput_listOutput, hread]

end ListSection

end Zebrafish.System
