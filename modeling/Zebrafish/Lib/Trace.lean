import Mathlib.Data.List.Forall2
import Zebrafish.Lib.Script

/-!
# Trace

The events of a script, oldest first.

`Script.Emits` is what every run of a script comes to, as a relation between its
result and its events; `run_of_emits` says so of a run.  Events of one part of a
script follow those of the part before (`emits_bind`), and a loop has the events
of its rounds (`Each`, `emits_forEach`).
-/

namespace Script

variable {Cmd : Type} {Ans : Cmd → Type} {α β γ : Type}

/-- Whatever the answers are, the result and the events are related by `T`. -/
def Emits : Script Ans α → (α → List (Event Ans) → Prop) → Prop
  | done a, T => T a []
  | call c k, T => ∀ r, (k r).Emits fun a events => T a (⟨c, r⟩ :: events)

section

variable {T T' : α → List (Event Ans) → Prop}

/-- A script that does nothing has no events. -/
@[simp] theorem emits_pure {a : α} : (pure a : Script Ans α).Emits T ↔ T a [] := Iff.rfl

/-- One command is one event, whatever its answer. -/
@[simp] theorem emits_command {c : Cmd} {T : Ans c → List (Event Ans) → Prop} :
    (command c).Emits T ↔ ∀ r, T r [⟨c, r⟩] := Iff.rfl

/-- The events of two scripts in a row. -/
@[simp] theorem emits_bind {p : Script Ans α} {f : α → Script Ans β}
    {T : β → List (Event Ans) → Prop} :
    (p >>= f).Emits T ↔
      p.Emits fun a events => (f a).Emits fun b later => T b (events ++ later) := by
  change (p.bind f).Emits T ↔ _
  induction p generalizing T with
  | done a => rfl
  | call c k ih => exact forall_congr' fun r => ih r

/-- What is known of the events may be weakened. -/
theorem Emits.mono {p : Script Ans α} (hp : p.Emits T) (hT : ∀ a events, T a events → T' a events) :
    p.Emits T' := by
  induction p generalizing T T' with
  | done a => exact hT a [] hp
  | call c k ih => exact fun r => ih r (hp r) fun a events => hT a _

/-- **Every run.** -/
theorem run_of_emits (w : World Ans) {p : Script Ans α} (hp : p.Emits T) (h : History Ans) :
    ∃ events, (p.run w h).2 = events.reverse ++ h ∧ T (p.run w h).1 events := by
  induction p generalizing T h with
  | done a => exact ⟨[], rfl, hp⟩
  | call c k ih =>
      obtain ⟨events, hrun, hT⟩ := ih (w h c) (hp (w h c)) (⟨c, w h c⟩ :: h)
      exact ⟨⟨c, w h c⟩ :: events, by simpa [run] using hrun, hT⟩

end

/-! ## loops -/

/-- One part after the other, each related by `T` to its element. -/
def Each {ε : Type} (T : α → List ε → Prop) (xs : List α) (events : List ε) : Prop :=
  ∃ parts, List.Forall₂ T xs parts ∧ events = parts.flatten

section

variable {ε : Type} {T : α → List ε → Prop}

@[simp] theorem each_nil {events : List ε} : Each T [] events ↔ events = [] := by
  simp [Each]

/-- One more part in front. -/
theorem Each.cons {x : α} {xs : List α} {part events : List ε} (hx : T x part)
    (hxs : Each T xs events) : Each T (x :: xs) (part ++ events) := by
  obtain ⟨parts, hparts, rfl⟩ := hxs
  exact ⟨part :: parts, .cons hx hparts, rfl⟩

/-- The parts of a list that is mapped. -/
theorem each_map {f : γ → α} {xs : List γ} {events : List ε} :
    Each T (xs.map f) events ↔ Each (fun x => T (f x)) xs events := by
  simp [Each]

/-- What is in the part of an element is in the whole. -/
theorem Each.exists_part {xs : List α} {events : List ε} (h : Each T xs events) {x : α}
    (hx : x ∈ xs) : ∃ part, T x part ∧ part <:+: events := by
  obtain ⟨parts, hparts, rfl⟩ := h
  obtain ⟨i, hi, rfl⟩ := List.getElem_of_mem hx
  have hlen := hparts.length_eq
  have hpart : parts[i] ∈ parts := List.getElem_mem (hlen ▸ hi)
  exact ⟨parts[i], hparts.get hi (hlen ▸ hi), List.infix_of_mem_flatten hpart⟩

end

/-- A loop that carries nothing along. -/
theorem emits_forEach {f : α → Script Ans Unit} {T : α → List (Event Ans) → Prop} {xs : List α}
    (hf : ∀ x ∈ xs, (f x).Emits fun _ => T x) :
    (xs.foldlM (fun _ x => f x) ()).Emits fun _ => Each T xs := by
  induction xs with
  | nil => simp
  | cons x xs ih =>
      rw [List.forall_mem_cons] at hf
      rw [List.foldlM_cons, emits_bind]
      exact hf.1.mono fun _ part hpart => (ih hf.2).mono fun _ events hevents => .cons hpart hevents

/-- A loop over the indices of a list. -/
theorem emits_forRange {f : Nat → Script Ans Unit} {T : α → List (Event Ans) → Prop} {xs : List α}
    (hf : ∀ i x, xs[i]? = some x → (f i).Emits fun _ => T x) :
    ((List.range xs.length).foldlM (fun _ i => f i) ()).Emits fun _ => Each T xs := by
  have hfrom : ∀ (ys : List α) (start : Nat),
      (∀ i y, ys[i]? = some y → (f (start + i)).Emits fun _ => T y) →
        ((List.range' start ys.length).foldlM (fun _ i => f i) ()).Emits fun _ => Each T ys := by
    intro ys
    induction ys with
    | nil => simp
    | cons y ys ih =>
        intro start hys
        rw [List.length_cons, List.range'_succ, List.foldlM_cons, emits_bind]
        have hrest := ih (start + 1) fun i z hz => by
          rw [Nat.add_right_comm]
          exact hys (i + 1) z (by simpa using hz)
        exact (hys 0 y rfl).mono fun _ part hpart =>
          hrest.mono fun _ events hevents => .cons hpart hevents
  rw [List.range_eq_range']
  exact hfrom xs 0 fun i x hx => by simpa using hf i x hx

end Script
