import Mathlib.Logic.Relation

/-!
# Search

A search with a stack of nodes that are still to be visited: take the one on
top, stop if it is what is looked for, push its children otherwise.

Nodes are not remembered, so the search only ends where no path of children is
infinite (`Acc`).  There it returns a node that can be reached from the stack and
is what is looked for, or none if there is no such node (`run_spec`).
-/

namespace Search

variable {α : Type} (found : α → Bool) (children : α → List α)

/-- The loop, with the stack from its top; the last child pushed is on top. -/
def run : Nat → List α → Option (Option α)
  | 0, _ => none
  | _ + 1, [] => some none
  | fuel + 1, a :: stack =>
      if found a then some (some a) else run fuel ((children a).reverse ++ stack)

/-- One node is below another one, or is that node. -/
def Below : α → α → Prop := Relation.ReflTransGen fun a b => b ∈ children a

/-- What is on top of a stack has been searched: either something was found below
it, or nothing is below it and the search went on with the rest. -/
def Searched (top : List α) : Prop :=
  ∀ rest, ∃ k,
    (∃ d, found d ∧ (∃ a ∈ top, Below children a d) ∧
      ∀ fuel, run found children (fuel + k) (top ++ rest) = some (some d)) ∨
    ((∀ a ∈ top, ∀ d, Below children a d → found d = false) ∧
      ∀ fuel, run found children (fuel + k) (top ++ rest) = run found children fuel rest)

variable {found children}

theorem searched_nil : Searched found children [] :=
  fun _ => ⟨0, Or.inr ⟨by simp, fun _ => rfl⟩⟩

/-- The top of a stack is searched before what is under it. -/
theorem Searched.append {top under : List α} (htop : Searched found children top)
    (hunder : Searched found children under) : Searched found children (top ++ under) := by
  intro rest
  obtain ⟨k, ⟨d, hd, ⟨a, ha, hbelow⟩, hrun⟩ | ⟨hnone, hrun⟩⟩ := htop (under ++ rest)
  · refine ⟨k, Or.inl ⟨d, hd, ⟨a, List.mem_append_left _ ha, hbelow⟩, fun fuel => ?_⟩⟩
    rw [List.append_assoc, hrun]
  · obtain ⟨k', ⟨d, hd, ⟨a, ha, hbelow⟩, hrun'⟩ | ⟨hnone', hrun'⟩⟩ := hunder rest
    · refine ⟨k' + k, Or.inl ⟨d, hd, ⟨a, List.mem_append_right _ ha, hbelow⟩, fun fuel => ?_⟩⟩
      rw [List.append_assoc, ← Nat.add_assoc, hrun, hrun']
    · refine ⟨k' + k, Or.inr ⟨?_, fun fuel => ?_⟩⟩
      · intro a ha
        obtain ha | ha := List.mem_append.mp ha
        · exact hnone a ha
        · exact hnone' a ha
      · rw [List.append_assoc, ← Nat.add_assoc, hrun, hrun']

/-- A list is searched if each of its elements is. -/
theorem searched_of_forall {top : List α} (h : ∀ a ∈ top, Searched found children [a]) :
    Searched found children top := by
  induction top with
  | nil => exact searched_nil
  | cons a top ih =>
      obtain ⟨ha, htop⟩ := List.forall_mem_cons.mp h
      exact ha.append (ih htop)

/-- A node is searched once its children are. -/
theorem searched_node {a : α} (h : Searched found children (children a).reverse) :
    Searched found children [a] := by
  intro rest
  cases ha : found a with
  | true =>
      refine ⟨1, Or.inl ⟨a, ha, ⟨a, by simp, Relation.ReflTransGen.refl⟩, fun fuel => ?_⟩⟩
      simp [run, ha]
  | false =>
      have hstep : ∀ fuel, run found children (fuel + 1) ([a] ++ rest) =
          run found children fuel ((children a).reverse ++ rest) := by
        intro fuel
        simp [run, ha]
      obtain ⟨k, ⟨d, hd, ⟨b, hb, hbelow⟩, hrun⟩ | ⟨hnone, hrun⟩⟩ := h rest
      · refine ⟨k + 1, Or.inl ⟨d, hd, ⟨a, by simp, ?_⟩, fun fuel => ?_⟩⟩
        · exact hbelow.head (List.mem_reverse.mp hb)
        · rw [← Nat.add_assoc, hstep, hrun]
      · refine ⟨k + 1, Or.inr ⟨?_, fun fuel => ?_⟩⟩
        · intro b hb d hbelow
          rw [List.mem_singleton.mp hb] at hbelow
          -- what is below the node is the node itself or below one of its children
          obtain rfl | ⟨c, hc, hcd⟩ := Relation.ReflTransGen.cases_head hbelow
          · exact ha
          · exact hnone c (List.mem_reverse.mpr hc) d hcd
        · rw [← Nat.add_assoc, hstep, hrun]

/-- An element from which no path goes on forever is searched. -/
theorem searched_of_acc {a : α} (h : Acc (fun b a => b ∈ children a) a) :
    Searched found children [a] := by
  induction h with
  | intro a _ ih =>
      exact searched_node (searched_of_forall fun b hb => ih b (List.mem_reverse.mp hb))

/-- The search ends, with a node that is looked for, or if there is none, without. -/
theorem run_spec (found : α → Bool) {stack : List α}
    (h : ∀ a ∈ stack, Acc (fun b a => b ∈ children a) a) :
    ∃ r k, (∀ fuel, k ≤ fuel → run found children fuel stack = some r) ∧
      (∀ d, r = some d → found d ∧ ∃ a ∈ stack, Below children a d) ∧
      (r = none → ∀ a ∈ stack, ∀ d, Below children a d → found d = false) := by
  have hall : Searched found children stack :=
    searched_of_forall fun a ha => searched_of_acc (h a ha)
  obtain ⟨k, ⟨d, hd, hbelow, hrun⟩ | ⟨hnone, hrun⟩⟩ := hall []
  · refine ⟨some d, k, fun fuel hfuel => ?_, ?_, by simp⟩
    · obtain ⟨n, rfl⟩ := Nat.exists_eq_add_of_le' hfuel
      simpa using hrun n
    · intro e he
      obtain rfl := Option.some.inj he
      exact ⟨hd, hbelow⟩
  · refine ⟨none, k + 1, fun fuel hfuel => ?_, by simp, fun _ => hnone⟩
    obtain ⟨n, rfl⟩ := Nat.exists_eq_add_of_le' hfuel
    have hend := hrun (n + 1)
    rw [List.append_nil, Nat.add_right_comm] at hend
    rw [← Nat.add_assoc, hend, run]

end Search
