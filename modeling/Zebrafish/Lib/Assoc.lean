import Mathlib.Data.List.Basic

/-!
# Assoc

Association lists: with distinct keys, looking up a key finds its entry; and
`alter`, which changes the entry of one key or adds it at the end.
-/

namespace Assoc

section Keys

variable {κ β : Type} [BEq κ] [LawfulBEq κ] {l : List (κ × β)} {k : κ} {b : β}

/-- What is found is in the list. -/
theorem mem_of_lookup (h : l.lookup k = some b) : (k, b) ∈ l := by
  obtain ⟨l₁, l₂, rfl, _⟩ := List.lookup_eq_some_iff.mp h
  simp

/-- Nothing is found just if the key is not there. -/
theorem lookup_eq_none_iff : l.lookup k = none ↔ k ∉ l.map Prod.fst := by
  rw [List.lookup_eq_none_iff]
  constructor
  · intro h hmem
    obtain ⟨e, he, rfl⟩ := List.mem_map.mp hmem
    simpa using h e he
  · intro h e he
    have hne : k ≠ e.1 := by
      rintro rfl
      exact h (List.mem_map_of_mem he)
    simpa using hne

/-- With distinct keys, each entry is found. -/
theorem lookup_of_mem (hnodup : (l.map Prod.fst).Nodup) (hmem : (k, b) ∈ l) :
    l.lookup k = some b := by
  induction l with
  | nil => cases hmem
  | cons e l ih =>
      obtain ⟨k', b'⟩ := e
      obtain ⟨hnot, hrest⟩ := List.nodup_cons.mp hnodup
      cases hmem with
      | head => simp
      | tail _ hmem =>
          have hne : (k == k') = false := by
            rw [beq_eq_false_iff_ne]
            rintro rfl
            exact hnot (List.mem_map.mpr ⟨_, hmem, rfl⟩)
          rw [List.lookup_cons, hne]
          exact ih hrest hmem

theorem lookup_eq_some_iff_mem (hnodup : (l.map Prod.fst).Nodup) :
    l.lookup k = some b ↔ (k, b) ∈ l :=
  ⟨mem_of_lookup, lookup_of_mem hnodup⟩

/-- The order of the entries does not matter. -/
theorem lookup_perm {l' : List (κ × β)} (hperm : l'.Perm l)
    (hnodup : (l.map Prod.fst).Nodup) (k : κ) : l'.lookup k = l.lookup k := by
  apply Option.ext
  intro b
  have hnodup' : (l'.map Prod.fst).Nodup := (hperm.map Prod.fst).nodup_iff.mpr hnodup
  rw [lookup_eq_some_iff_mem hnodup', lookup_eq_some_iff_mem hnodup, hperm.mem_iff]

end Keys

/-! ## changing one entry -/

variable {β : Type} {l : List (String × β)} {k : String} {b : β}

/-- Change what is under a key, or add it; `f` may refuse. -/
def alter (k : String) (f : Option β → Option β) : List (String × β) → Option (List (String × β))
  | [] => (f none).map fun b => [(k, b)]
  | (c, b) :: l =>
      if c = k then (f (some b)).map fun b => (c, b) :: l
      else (alter k f l).map fun l => (c, b) :: l

variable {f : Option β → Option β} {l' : List (String × β)}

/-- What was under the key is what `f` gets, and what it gives is there afterwards. -/
theorem lookup_alter_self (h : alter k f l = some l') :
    ∃ b, f (l.lookup k) = some b ∧ l'.lookup k = some b := by
  induction l generalizing l' with
  | nil =>
      obtain ⟨b, hb, rfl⟩ := Option.map_eq_some_iff.mp h
      exact ⟨b, hb, by simp⟩
  | cons e l ih =>
      obtain ⟨c, b⟩ := e
      rw [alter] at h
      split at h
      · next hc =>
          subst hc
          obtain ⟨b', hb', rfl⟩ := Option.map_eq_some_iff.mp h
          exact ⟨b', by simpa using hb', by simp⟩
      · next hc =>
          obtain ⟨l₁, hl₁, rfl⟩ := Option.map_eq_some_iff.mp h
          have hne : (k == c) = false := by simpa using Ne.symm hc
          rw [List.lookup_cons, List.lookup_cons, hne]
          exact ih hl₁

/-- Nothing else changes. -/
theorem lookup_alter_of_ne {c : String} (hc : c ≠ k) (h : alter k f l = some l') :
    l'.lookup c = l.lookup c := by
  induction l generalizing l' with
  | nil =>
      obtain ⟨b, hb, rfl⟩ := Option.map_eq_some_iff.mp h
      simp [hc]
  | cons e l ih =>
      obtain ⟨d, b⟩ := e
      rw [alter] at h
      split at h
      · next hd =>
          subst hd
          obtain ⟨b', hb', rfl⟩ := Option.map_eq_some_iff.mp h
          have hne : (c == d) = false := by simpa using hc
          rw [List.lookup_cons, List.lookup_cons, hne]
      · next hd =>
          obtain ⟨l₁, hl₁, rfl⟩ := Option.map_eq_some_iff.mp h
          rw [List.lookup_cons, List.lookup_cons, ih hl₁]

/-- The keys afterwards are those before, and the one that was changed. -/
theorem mem_keys_alter (h : alter k f l = some l') {c : String} :
    c ∈ l'.map Prod.fst ↔ c ∈ l.map Prod.fst ∨ c = k := by
  induction l generalizing l' with
  | nil =>
      obtain ⟨b, hb, rfl⟩ := Option.map_eq_some_iff.mp h
      simp
  | cons e l ih =>
      obtain ⟨d, b⟩ := e
      rw [alter] at h
      split at h
      · next hd =>
          subst hd
          obtain ⟨b', hb', rfl⟩ := Option.map_eq_some_iff.mp h
          simp only [List.map_cons, List.mem_cons]
          tauto
      · next hd =>
          obtain ⟨l₁, hl₁, rfl⟩ := Option.map_eq_some_iff.mp h
          simp only [List.map_cons, List.mem_cons, ih hl₁]
          tauto

/-- Entries with other keys stay in front. -/
theorem alter_append (h : k ∉ l.map Prod.fst) (l₂ : List (String × β)) :
    alter k f (l ++ l₂) = (alter k f l₂).map fun l₂ => l ++ l₂ := by
  induction l with
  | nil => simp
  | cons e l ih =>
      obtain ⟨c, b⟩ := e
      simp only [List.map_cons, List.mem_cons, not_or] at h
      rw [List.cons_append, alter, if_neg (Ne.symm h.1), ih h.2, Option.map_map]
      rfl

/-- A change that is refused is none. -/
theorem alter_refuses (l : List (String × β)) : alter k (fun _ => none) l = none := by
  induction l with
  | nil => rfl
  | cons e l ih =>
      obtain ⟨c, b⟩ := e
      rw [alter, ih]
      split <;> rfl

end Assoc
