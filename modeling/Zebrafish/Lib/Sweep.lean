import Mathlib.Data.List.Perm.Subperm
import Mathlib.Data.Set.Finite.List
import Mathlib.Logic.Relation
import Mathlib.Order.FixedPoints
import Mathlib.Order.CompletePartialOrder
import Mathlib.Order.WellFounded

/-!
# Sweep

Putting things in order by sweeping over what is left, again and again.

A sweep takes whatever is ready after the things already taken, in the order
it comes (`pass`); sweeps go on until one takes nothing (`sweep`).  Whether a
thing is ready is up to the set of things taken, and may only change for the
better (`Rule`).  Then what is taken in the end is the least fixed point of the
rule (`mem_sweep_iff`, `sweep_done`), and what is left is everything else, in
the order it came (`sweep_rest`).  Nothing is left when things wait for each other without
a cycle (`Rule.mem_lfp_of_acyclic`).
-/

namespace Sweep

variable {α : Type}

section

variable (ready : List α → α → Bool)

/-- One sweep: what has been taken after it, and what is left. -/
def pass (done : List α) : List α → List α × List α
  | [] => (done, [])
  | x :: xs =>
      if ready done x then pass (done ++ [x]) xs
      else ((pass done xs).1, x :: (pass done xs).2)

/-- A pass loses nothing and adds nothing. -/
theorem perm_pass (done xs : List α) :
    ((pass ready done xs).1 ++ (pass ready done xs).2).Perm (done ++ xs) := by
  induction xs generalizing done with
  | nil => simp [pass]
  | cons x xs ih =>
      rw [pass]
      split
      · simpa using ih (done ++ [x])
      · exact List.perm_middle.trans (((ih done).cons x).trans List.perm_middle.symm)

/-- What a pass leaves is in the order it was in. -/
theorem sublist_pass (done xs : List α) : (pass ready done xs).2.Sublist xs := by
  induction xs generalizing done with
  | nil => simp [pass]
  | cons x xs ih =>
      rw [pass]
      split
      · exact (ih (done ++ [x])).cons x
      · exact (ih done).cons_cons x

/-- A sweep that leaves everything has found nothing ready. -/
theorem pass_stuck {done xs : List α} (h : xs.length ≤ (pass ready done xs).2.length) :
    pass ready done xs = (done, xs) ∧ ∀ x ∈ xs, ready done x = false := by
  induction xs with
  | nil => simp [pass]
  | cons x xs ih =>
      rw [pass] at h ⊢
      cases hx : ready done x with
      | true =>
          have hle := (sublist_pass ready (done ++ [x]) xs).length_le
          simp [hx] at h
          omega
      | false =>
          simp only [hx, Bool.false_eq_true, if_false, List.length_cons] at h ⊢
          obtain ⟨hpass, hall⟩ := ih (by omega)
          simpa [hpass, hx] using hall

/-- Sweeps, until one takes nothing. -/
def sweep (done rest : List α) : List α × List α :=
  if (pass ready done rest).2.length < rest.length then
    sweep (pass ready done rest).1 (pass ready done rest).2
  else (done, rest)
termination_by rest.length

/-- Nor do passes in a row lose or add anything. -/
theorem perm_sweep (done rest : List α) :
    ((sweep ready done rest).1 ++ (sweep ready done rest).2).Perm (done ++ rest) := by
  fun_induction sweep ready done rest with
  | case1 done rest h ih => exact ih.trans (perm_pass ready done rest)
  | case2 done rest h => exact List.Perm.refl _

/-- What they leave is in the order it was in. -/
theorem sublist_sweep (done rest : List α) : (sweep ready done rest).2.Sublist rest := by
  fun_induction sweep ready done rest with
  | case1 done rest h ih => exact ih.trans (sublist_pass ready done rest)
  | case2 done rest h => exact List.Sublist.refl _

/-- In the end nothing that is left is ready. -/
theorem sweep_stuck (done rest : List α) :
    ∀ x ∈ (sweep ready done rest).2, ready (sweep ready done rest).1 x = false := by
  fun_induction sweep ready done rest with
  | case1 done rest h ih => exact ih
  | case2 done rest h => exact (pass_stuck ready (Nat.le_of_not_lt h)).2

/-- Everything taken was ready after what was taken before it. -/
def Chain (done : List α) : Prop := ∀ before x after, done = before ++ x :: after → ready before x

variable {ready}

theorem Chain.nil : Chain ready [] := by simp [Chain]

/-- One more that is ready. -/
theorem Chain.concat {done : List α} (h : Chain ready done) {x : α} (hx : ready done x) :
    Chain ready (done ++ [x]) := by
  intro before y after heq
  rcases List.eq_nil_or_concat after with rfl | ⟨after, z, rfl⟩
  · obtain ⟨rfl, hlast⟩ := List.append_inj' heq rfl
    simp_all
  · have hsplit : done ++ [x] = (before ++ y :: after) ++ [z] := by simpa using heq
    exact h before y after (List.append_inj' hsplit rfl).1

/-- A pass goes on with a chain. -/
theorem Chain.pass {done : List α} (h : Chain ready done) (xs : List α) :
    Chain ready (pass ready done xs).1 := by
  induction xs generalizing done with
  | nil => exact h
  | cons x xs ih =>
      rw [Sweep.pass]
      split
      · next hx => exact ih (h.concat hx)
      · exact ih h

/-- So do passes in a row. -/
theorem Chain.sweep {done rest : List α} (h : Chain ready done) :
    Chain ready (sweep ready done rest).1 := by
  fun_induction Sweep.sweep ready done rest with
  | case1 done rest hlt ih => exact ih (h.pass rest)
  | case2 done rest hlt => exact h

end

/-! ## the fixed point -/

/-- A rule for some things: which of them are ready after a set of things. -/
structure Rule (xs : List α) where
  toHom : Set α →o Set α
  listed : ∀ s x, x ∈ toHom s → x ∈ xs

namespace Rule

variable {xs : List α} (R : Rule xs) {ready : List α → α → Bool}

/-- The least set of things that are all ready after it. -/
def lfp : Set α := R.toHom.lfp

/-- The least fixed point is a fixed point. -/
theorem map_lfp : R.toHom R.lfp = R.lfp := R.toHom.map_lfp

/-- `ready` goes by the rule. -/
def Decides (ready : List α → α → Bool) : Prop :=
  ∀ done, ∀ x ∈ xs, ready done x = true ↔ x ∈ R.toHom {y | y ∈ done}

variable {R}

/-- A chain stays inside the least fixed point. -/
theorem mem_lfp_of_chain (hR : R.Decides ready) {done : List α} (h : Chain ready done)
    (hin : ∀ x ∈ done, x ∈ xs) : ∀ x ∈ done, x ∈ R.lfp := by
  induction done using List.reverseRecOn with
  | nil => simp
  | append_singleton done x ih =>
      have hdone : Chain ready done := by
        intro before y after heq
        exact h before y (after ++ [x]) (by simp [heq])
      have hbefore := ih hdone fun y hy => hin y (by simp [hy])
      have hx : x ∈ R.toHom {y | y ∈ done} :=
        (hR done x (hin x (by simp))).mp (h done x [] rfl)
      have hlast : x ∈ R.lfp := R.map_lfp ▸ R.toHom.monotone hbefore hx
      simp only [List.mem_append, List.mem_singleton]
      rintro y (hy | rfl)
      · exact hbefore y hy
      · exact hlast

/-- What is taken in the end is the least fixed point. -/
theorem mem_sweep_iff (hR : R.Decides ready) (x : α) :
    x ∈ (sweep ready [] xs).1 ↔ x ∈ R.lfp := by
  have hperm := perm_sweep ready [] xs
  have hin : ∀ y ∈ (sweep ready [] xs).1, y ∈ xs := by
    intro y hy
    simpa using hperm.subset (List.mem_append_left _ hy)
  constructor
  · exact mem_lfp_of_chain hR Chain.nil.sweep hin x
  · -- the things taken are closed under the rule: what is left is not ready
    have hclosed : R.toHom {y | y ∈ (sweep ready [] xs).1} ⊆ {y | y ∈ (sweep ready [] xs).1} := by
      intro y hy
      have hxs := R.listed _ y hy
      have hready := (hR _ y hxs).mpr hy
      have hsplit : y ∈ (sweep ready [] xs).1 ++ (sweep ready [] xs).2 :=
        hperm.mem_iff.mpr (by simpa using hxs)
      rcases List.mem_append.mp hsplit with hdone | hrest
      · exact hdone
      · simp [sweep_stuck ready [] xs y hrest] at hready
    intro hx
    exact R.toHom.lfp_le hclosed hx

open Classical in
/-- What is left is everything else, in the order it came. -/
theorem sweep_rest (hR : R.Decides ready) :
    (sweep ready [] xs).2 = xs.filter fun x => decide (x ∉ R.lfp) := by
  have hperm := perm_sweep ready [] xs
  have hdone : ∀ x ∈ (sweep ready [] xs).1, x ∈ R.lfp := fun x => (mem_sweep_iff hR x).mp
  have hrest : ∀ x ∈ (sweep ready [] xs).2, x ∉ R.lfp := by
    intro x hx hmem
    have hxs : x ∈ xs := (sublist_sweep ready [] xs).subset hx
    have hready : ready (sweep ready [] xs).1 x = true := by
      rw [hR _ x hxs]
      have hset : {y | y ∈ (sweep ready [] xs).1} = R.lfp := Set.ext (mem_sweep_iff hR)
      rw [hset, R.map_lfp]
      exact hmem
    simp [sweep_stuck ready [] xs x hx] at hready
  have hsub : (sweep ready [] xs).2.Sublist (xs.filter fun x => decide (x ∉ R.lfp)) := by
    have hfilter := (sublist_sweep ready [] xs).filter fun x => decide (x ∉ R.lfp)
    rwa [List.filter_eq_self.mpr (by simpa using hrest)] at hfilter
  have hlen := (hperm.filter fun x => decide (x ∉ R.lfp)).length_eq
  rw [List.filter_append, List.filter_eq_nil_iff.mpr (by simpa using hdone),
    List.filter_eq_self.mpr (by simpa using hrest)] at hlen
  exact hsub.eq_of_length (by simpa using hlen)

open Classical in
/-- What is taken is the things of the fixed point, each as often as it came. -/
theorem sweep_done (hR : R.Decides ready) :
    (sweep ready [] xs).1.Perm (xs.filter fun x => decide (x ∈ R.lfp)) := by
  have hdone : ∀ x ∈ (sweep ready [] xs).1, x ∈ R.lfp := fun x => (mem_sweep_iff hR x).mp
  have hrest : ∀ x ∈ (sweep ready [] xs).2, x ∉ R.lfp := by
    intro x hx
    rw [sweep_rest hR] at hx
    simpa using (List.mem_filter.mp hx).2
  have hperm := (perm_sweep ready [] xs).filter fun x => decide (x ∈ R.lfp)
  rwa [List.filter_append, List.filter_eq_self.mpr (by simpa using hdone),
    List.filter_eq_nil_iff.mpr (by simpa using hrest), List.append_nil, List.nil_append] at hperm

/-- Things that wait for each other without a cycle are all ready in the end. -/
theorem mem_lfp_of_acyclic {before : α → α → Prop}
    (hR : ∀ s, ∀ x ∈ xs, (∀ y ∈ xs, before y x → y ∈ s) → x ∈ R.toHom s)
    (hacyclic : ∀ x, ¬ Relation.TransGen before x x) : ∀ x ∈ xs, x ∈ R.lfp := by
  have hfinite : Finite { x // x ∈ xs } := List.finite_toSet xs
  let waits (a b : { x // x ∈ xs }) : Prop := Relation.TransGen before a.1 b.1
  have htrans : IsTrans _ waits := ⟨fun _ _ _ => Relation.TransGen.trans⟩
  have hirrefl : Std.Irrefl waits := ⟨fun a => hacyclic a.1⟩
  have hwf : WellFounded waits := Finite.wellFounded_of_trans_of_irrefl waits
  intro x hx
  refine hwf.induction (C := fun a => a.1 ∈ R.lfp) ⟨x, hx⟩ ?_
  intro a ih
  rw [← R.map_lfp]
  exact hR _ a.1 a.2 fun y hy hbefore => ih ⟨y, hy⟩ (Relation.TransGen.single hbefore)

end Rule

end Sweep
