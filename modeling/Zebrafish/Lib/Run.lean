import Mathlib.Logic.Relation

/-!
# Run

Runs of a transition system some of whose steps are left out.

`Run step cond` are the runs in which every step meets `cond`; a property that
holds at the start and is kept by such steps holds in every state they reach
(`Run.invariant`).
-/

/-- Runs of `step` in which every step meets `cond`. -/
abbrev Run {σ : Type} (step cond : σ → σ → Prop) : σ → σ → Prop :=
  Relation.ReflTransGen fun s s' => step s s' ∧ cond s s'

namespace Run

variable {σ : Type} {step cond : σ → σ → Prop} {s₀ s s' : σ}

theorem refl : Run step cond s s := Relation.ReflTransGen.refl

/-- One more step. -/
theorem snoc (h : Run step cond s₀ s) (hstep : step s s') (hcond : cond s s') :
    Run step cond s₀ s' := Relation.ReflTransGen.tail h ⟨hstep, hcond⟩

/-- A run is one of the system that leaves nothing out. -/
theorem any (h : Run step cond s₀ s) : Run step (fun _ _ => True) s₀ s :=
  Relation.ReflTransGen.mono (fun _ _ hstep => ⟨hstep.1, trivial⟩) _ _ h

/-- A property that holds at the start and is kept holds in every state reached. -/
theorem invariant {Inv : σ → Prop} (hinit : Inv s₀)
    (hstep : ∀ s s', Inv s → step s s' → cond s s' → Inv s') (hrun : Run step cond s₀ s) :
    Inv s := by
  induction hrun with
  | refl => exact hinit
  | tail _ hlast ih => exact hstep _ _ ih hlast.1 hlast.2

end Run
