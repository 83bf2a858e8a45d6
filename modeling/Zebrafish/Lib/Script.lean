import Mathlib.Data.List.Infix

/-!
# Script

Scripts: programs whose only effects are commands, each answered from outside.

`Script.run` runs one in a `World`, which answers a command by all that
happened before it.  `Script.wp` is what has to hold before a script for all
its events to meet `guar` and its result `Q`, if the answers it gets meet
`rely`; `run_of_wp` says so of every run.  The rules for sequences and loops
are `wp_bind` and `wp_foldlM`.
-/

/-- A program of commands `c`, each with an answer in `Ans c`. -/
inductive Script {Cmd : Type} (Ans : Cmd → Type) (α : Type) : Type
  | done (a : α)
  | call (c : Cmd) (k : Ans c → Script Ans α)

namespace Script

variable {Cmd : Type} {Ans : Cmd → Type} {α β : Type}

def bind : Script Ans α → (α → Script Ans β) → Script Ans β
  | done a, f => f a
  | call c k, f => call c fun r => (k r).bind f

instance : Monad (Script Ans) where
  pure := done
  bind := bind

/-- Three scripts in a row. -/
theorem bind_assoc {γ : Type} (p : Script Ans α) (f : α → Script Ans β) (g : β → Script Ans γ) :
    p >>= f >>= g = p >>= fun a => f a >>= g := by
  change (p.bind f).bind g = p.bind fun a => (f a).bind g
  induction p with
  | done a => rfl
  | call c k ih => exact congrArg (call c) (funext ih)

/-- Just one command. -/
def command (c : Cmd) : Script Ans (Ans c) := call c done

/-! ## runs -/

/-- A command and its answer. -/
abbrev Event (Ans : Cmd → Type) : Type := (c : Cmd) × Ans c

/-- What happened, the newest event first. -/
abbrev History (Ans : Cmd → Type) : Type := List (Event Ans)

abbrev World (Ans : Cmd → Type) : Type := History Ans → (c : Cmd) → Ans c

def run (w : World Ans) : Script Ans α → History Ans → α × History Ans
  | done a, h => (a, h)
  | call c k, h => (k (w h c)).run w (⟨c, w h c⟩ :: h)

/-- A run only adds to the history. -/
theorem suffix_run (w : World Ans) (p : Script Ans α) (h : History Ans) :
    h <:+ (p.run w h).2 := by
  induction p generalizing h with
  | done a => exact List.suffix_refl h
  | call c k ih => exact (List.suffix_cons ⟨c, w h c⟩ h).trans (ih (w h c) _)

/-- A run of two scripts in a row. -/
theorem run_bind (w : World Ans) (p : Script Ans α) (f : α → Script Ans β) (h : History Ans) :
    (p >>= f).run w h = (f (p.run w h).1).run w (p.run w h).2 := by
  change (p.bind f).run w h = _
  induction p generalizing h with
  | done a => rfl
  | call c k ih => exact ih (w h c) _

/-- A loop goes on from where its last round ended. -/
theorem run_foldlM (w : World Ans) (f : β → α → Script Ans β) (xs : List α) (b : β)
    (h : History Ans) :
    (xs.foldlM f b).run w h = xs.foldl (fun s x => (f s.1 x).run w s.2) (b, h) := by
  induction xs generalizing b h with
  | nil => rfl
  | cons x xs ih =>
      rw [List.foldlM_cons, run_bind, List.foldl_cons]
      exact ih _ _

/-- What a loop goes through, each element with the state it is met in. -/
def visits {α σ : Type} (step : σ → α → σ) : List α → σ → List (α × σ)
  | [], _ => []
  | x :: xs, s => (x, s) :: visits step xs (step s x)

/-- Steps that agree on all a loop goes through make the same loop. -/
theorem visits_congr {α σ : Type} {step step' : σ → α → σ} {xs : List α} {s : σ}
    (h : ∀ v ∈ visits step xs s, step v.2 v.1 = step' v.2 v.1) :
    visits step xs s = visits step' xs s := by
  induction xs generalizing s with
  | nil => rfl
  | cons x xs ih =>
      obtain ⟨hx, hxs⟩ := List.forall_mem_cons.mp h
      rw [visits, visits, ← hx, ih hxs]

/-- Every event has the property `P`, given what happened before it. -/
def Always (P : Event Ans → History Ans → Prop) (h : History Ans) : Prop :=
  ∀ e past, e :: past <:+ h → P e past

section

variable {P : Event Ans → History Ans → Prop} {e : Event Ans} {h h' : History Ans}

theorem Always.nil : Always P [] := by
  intro e past hin
  cases List.suffix_nil.mp hin

/-- One more event. -/
theorem Always.cons (he : P e h) (hh : Always P h) : Always P (e :: h) := by
  intro e' past hin
  rcases List.suffix_cons_iff.mp hin with heq | hin
  · cases heq
    exact he
  · exact hh e' past hin

/-- What always holds has held at any time before. -/
theorem Always.of_suffix (hh : Always P h') (hin : h <:+ h') : Always P h :=
  fun e past hpast => hh e past (hpast.trans hin)

end

/-- In a world whose answers all have a property, so has every run. -/
theorem always_run {P : Event Ans → History Ans → Prop} {w : World Ans}
    (hw : ∀ c h, P ⟨c, w h c⟩ h) (p : Script Ans α) {h : History Ans} (hinit : Always P h) :
    Always P (p.run w h).2 := by
  induction p generalizing h with
  | done a => exact hinit
  | call c k ih => exact ih (w h c) (hinit.cons (hw c h))

/-! ## what a script needs -/

variable {rely guar : Event Ans → History Ans → Prop} {Q : α → History Ans → Prop}
  {h : History Ans}

def wp (rely guar : Event Ans → History Ans → Prop) :
    Script Ans α → (α → History Ans → Prop) → History Ans → Prop
  | done a, Q, h => Q a h
  | call c k, Q, h => ∀ r, rely ⟨c, r⟩ h → guar ⟨c, r⟩ h ∧ (k r).wp rely guar Q (⟨c, r⟩ :: h)

/-- A script that does nothing. -/
@[simp] theorem wp_pure {a : α} : wp rely guar (pure a) Q h ↔ Q a h := Iff.rfl

/-- One command: whatever it may answer, what it guarantees and what follows. -/
@[simp] theorem wp_command {c : Cmd} {Q : Ans c → History Ans → Prop} :
    wp rely guar (command c) Q h ↔
      ∀ r, rely ⟨c, r⟩ h → guar ⟨c, r⟩ h ∧ Q r (⟨c, r⟩ :: h) := Iff.rfl

/-- Two scripts in a row. -/
@[simp] theorem wp_bind {p : Script Ans α} {f : α → Script Ans β} {Q : β → History Ans → Prop} :
    wp rely guar (p >>= f) Q h ↔ wp rely guar p (fun a => wp rely guar (f a) Q) h := by
  change wp rely guar (p.bind f) Q h ↔ _
  induction p generalizing h with
  | done a => exact Iff.rfl
  | call c k ih =>
      simp only [bind, wp]
      exact forall_congr' fun r => imp_congr_right fun _ => and_congr_right fun _ => ih r

/-- What is to hold in the end may be weakened. -/
theorem wp_mono {p : Script Ans α} {Q' : α → History Ans → Prop}
    (hp : wp rely guar p Q h) (hQ : ∀ a h, Q a h → Q' a h) : wp rely guar p Q' h := by
  induction p generalizing h with
  | done a => exact hQ a h hp
  | call c k ih =>
      intro r hr
      exact ⟨(hp r hr).1, ih r (hp r hr).2⟩

/-- Loops: `I` holds of what is still to do, of what is carried along and of
what happened so far. -/
theorem wp_foldlM {f : β → α → Script Ans β} {I : List α → β → History Ans → Prop}
    (hstep : ∀ x xs b h, I (x :: xs) b h → wp rely guar (f b x) (I xs) h)
    (xs : List α) {b : β} (hinit : I xs b h) : wp rely guar (xs.foldlM f b) (I []) h := by
  induction xs generalizing b h with
  | nil => exact hinit
  | cons x xs ih =>
      rw [List.foldlM_cons, wp_bind]
      exact wp_mono (hstep x xs b h hinit) fun b h hI => ih hI

/-- Loops that carry nothing along: `I` holds of what they have gone through and
of what happened so far. -/
theorem wp_forEach {f : α → Script Ans Unit} {I : List α → History Ans → Prop} {xs : List α}
    (hstep : ∀ before x after h, xs = before ++ x :: after → I before h →
      wp rely guar (f x) (fun _ => I (before ++ [x])) h)
    (hinit : I [] h) : wp rely guar (xs.foldlM (fun _ x => f x) ()) (fun _ => I xs) h := by
  refine wp_mono (wp_foldlM (I := fun rest _ h => ∃ before, xs = before ++ rest ∧ I before h)
    (fun x rest _ h hI => ?_) xs ⟨[], rfl, hinit⟩) fun _ h hI => ?_
  · obtain ⟨before, hsplit, hbefore⟩ := hI
    refine wp_mono (hstep before x rest h hsplit hbefore) fun _ h hI => ?_
    exact ⟨before ++ [x], by rw [hsplit, List.append_cons], hI⟩
  · obtain ⟨before, hsplit, hbefore⟩ := hI
    rw [List.append_nil] at hsplit
    exact hsplit ▸ hbefore

/-! ## some commands only -/

/-- No other commands are run. -/
def Only (P : Cmd → Prop) : Script Ans α → Prop
  | done _ => True
  | call c k => P c ∧ ∀ r, (k r).Only P

variable {P : Cmd → Prop}

@[simp] theorem only_pure (a : α) : Only P (pure a : Script Ans α) := trivial

@[simp] theorem only_command {c : Cmd} : (command c : Script Ans (Ans c)).Only P ↔ P c :=
  ⟨fun h => h.1, fun h => ⟨h, fun _ => trivial⟩⟩

/-- Two scripts in a row run the commands of both. -/
theorem Only.bind {p : Script Ans α} {f : α → Script Ans β} (hp : p.Only P)
    (hf : ∀ a, (f a).Only P) : (p >>= f).Only P := by
  change (p.bind f).Only P
  induction p with
  | done a => exact hf a
  | call c k ih => exact ⟨hp.1, fun r => ih r (hp.2 r)⟩

/-- A command, and then a script on its answer. -/
theorem Only.command_bind {c : Cmd} {f : Ans c → Script Ans α} (hc : P c)
    (hf : ∀ r, (f r).Only P) : (command c >>= f).Only P := ⟨hc, hf⟩

/-- A loop runs the commands of its body. -/
theorem Only.foldlM {f : β → α → Script Ans β} {xs : List α}
    (hf : ∀ x ∈ xs, ∀ b, (f b x).Only P) (b : β) : (xs.foldlM f b).Only P := by
  induction xs generalizing b with
  | nil => exact only_pure b
  | cons x xs ih =>
      rw [List.forall_mem_cons] at hf
      exact (hf.1 b).bind (ih hf.2)

/-- What the commands keep, the script keeps. -/
theorem wp_of_only {I : History Ans → Prop}
    (hI : ∀ e h, P e.1 → rely e h → I h → guar e h ∧ I (e :: h)) {p : Script Ans α}
    (hp : p.Only P) (h₀ : I h) : wp rely guar p (fun _ => I) h := by
  induction p generalizing h with
  | done a => exact h₀
  | call c k ih =>
      intro r hr
      obtain ⟨hguar, hnext⟩ := hI ⟨c, r⟩ h hp.1 hr h₀
      exact ⟨hguar, ih r (hp.2 r) hnext⟩

/-! ## every run -/

/-- In a world that keeps to the rely, each event meets its guarantee and the
end its postcondition. -/
theorem run_of_wp (w : World Ans) {p : Script Ans α} (hp : wp rely guar p Q h)
    (hrely : Always rely (p.run w h).2) (hguar : Always guar h) :
    Always guar (p.run w h).2 ∧ Q (p.run w h).1 (p.run w h).2 := by
  induction p generalizing h with
  | done a => exact ⟨hguar, hp⟩
  | call c k ih =>
      have hnew : rely ⟨c, w h c⟩ h := hrely _ _ (suffix_run w (k (w h c)) _)
      obtain ⟨hg, hk⟩ := hp (w h c) hnew
      exact ih (w h c) hk hrely (hguar.cons hg)

end Script
