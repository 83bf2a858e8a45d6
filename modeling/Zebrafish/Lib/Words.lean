/-!
# Words

Lists of names as a shell handles them: joined by blanks into one string
(`xargs`), and searched by a pattern `*text*` (`contains`).

A text without blanks cannot straddle two words, so it is found in the joined
string exactly when it is found in one of the names (`contains_xargs_iff`).
-/

namespace Shell

/-- `[[ $hay == *"$text"* ]]`. -/
def contains (hay text : List Char) : Bool := text.isPrefixOf hay ||
  match hay with
  | [] => false
  | _ :: hay => contains hay text

/-- `xargs`, given one name a line: the words of all of them, joined by
blanks. -/
def xargs (names : List (List Char)) : List Char :=
  [' '].intercalate ((names.flatMap (·.splitOn ' ')).filter (· ≠ []))

/-- A text contains another as a part. -/
theorem contains_iff {hay text : List Char} : contains hay text = true ↔ text <:+: hay := by
  induction hay with
  | nil => simp [contains]
  | cons c hay ih =>
      rw [contains, Bool.or_eq_true, ih, List.isPrefixOf_iff_prefix, List.infix_cons_iff]

/-- A text without the separator lies on one side of it. -/
theorem infix_append_cons_iff {text xs ys : List Char} {c : Char} (hne : text ≠ [])
    (hc : c ∉ text) :
    text <:+: xs ++ c :: ys ↔ text <:+: xs ∨ text <:+: ys := by
  have hstart : ∀ l : List Char, l ≠ [] → c ∉ l → ¬ l <+: c :: ys := by
    intro l hl hcl hpre
    obtain ⟨t, ht⟩ := hpre
    cases l with
    | nil => exact hl rfl
    | cons x l =>
        have hx : x = c := (List.cons.inj ht).1
        exact hcl (hx ▸ List.mem_cons_self)
  constructor
  · intro h
    rcases List.infix_append_iff.mp h with h | h | ⟨l₁, l₂, rfl, h₁, h₂⟩
    · exact Or.inl h
    · rcases List.infix_cons_iff.mp h with h | h
      · exact absurd h (hstart text hne hc)
      · exact Or.inr h
    · by_cases hl₂ : l₂ = []
      · rw [hl₂, List.append_nil]
        exact Or.inl h₁.isInfix
      · exact absurd h₂ (hstart l₂ hl₂ fun hmem => hc (List.mem_append_right _ hmem))
  · rintro (h | h)
    · exact h.trans (List.prefix_append xs (c :: ys)).isInfix
    · exact h.trans ((List.suffix_cons c ys).trans (List.suffix_append xs (c :: ys))).isInfix

/-- A text without the separator is in one of those joined. -/
theorem infix_intercalate_iff {text : List Char} (hne : text ≠ []) {c : Char} (hc : c ∉ text)
    (ws : List (List Char)) : text <:+: [c].intercalate ws ↔ ∃ w ∈ ws, text <:+: w := by
  induction ws with
  | nil => simp [hne]
  | cons w ws ih =>
      by_cases hnil : ws = []
      · subst hnil
        simp
      · rw [List.intercalate_cons_of_ne_nil hnil, List.append_assoc, List.singleton_append,
          infix_append_cons_iff hne hc, ih]
        simp

/-- The substring test of the shell on a list of names. -/
theorem contains_xargs_iff {text : List Char} (hne : text ≠ []) (hblank : ' ' ∉ text)
    (names : List (List Char)) :
    contains (xargs names) text = true ↔ ∃ d ∈ names, text <:+: d := by
  have hword : ∀ d : List Char, text <:+: d ↔ ∃ w ∈ d.splitOn ' ', text <:+: w := by
    intro d
    rw [← infix_intercalate_iff hne hblank, List.intercalate_splitOn]
  rw [contains_iff, xargs, infix_intercalate_iff hne hblank]
  constructor
  · rintro ⟨w, hw, hin⟩
    obtain ⟨d, hd, hwd⟩ := List.mem_flatMap.mp (List.mem_filter.mp hw).1
    exact ⟨d, hd, (hword d).mpr ⟨w, hwd, hin⟩⟩
  · rintro ⟨d, hd, hin⟩
    obtain ⟨w, hw, hin⟩ := (hword d).mp hin
    have hwne : w ≠ [] := by
      rintro rfl
      exact hne (List.infix_nil.mp hin)
    exact ⟨w, List.mem_filter.mpr ⟨List.mem_flatMap.mpr ⟨d, hd, hw⟩, by simpa using hwne⟩, hin⟩

/-- A word between two separators is one of the words, and neither the first nor
the last. -/
theorem infix_between_iff {c : Char} {text : List Char} (hc : c ∉ text) {ws : List (List Char)}
    (hws : ∀ w ∈ ws, c ∉ w) (hne : ws ≠ []) :
    c :: text ++ [c] <:+: [c].intercalate ws ↔
      ∃ before after, before ≠ [] ∧ after ≠ [] ∧ ws = before ++ text :: after := by
  constructor
  · rintro ⟨a, b, hin⟩
    have hsplit := List.splitOn_intercalate c hws hne
    rw [← hin] at hsplit
    have hshape : a ++ (c :: text ++ [c]) ++ b = a ++ c :: (text ++ c :: b) := by simp
    rw [hshape, List.splitOn_append_cons_self, List.splitOn_append_cons_self_of_not_mem hc]
      at hsplit
    exact ⟨_, _, List.splitOn_ne_nil _ _, List.splitOn_ne_nil _ _, hsplit.symm⟩
  · rintro ⟨before, after, hbefore, hafter, rfl⟩
    simp only [List.forall_mem_append, List.forall_mem_cons] at hws
    have hsplit : ([c].intercalate before ++ c :: (text ++ c :: [c].intercalate after)).splitOn c =
        before ++ text :: after := by
      rw [List.splitOn_append_cons_self, List.splitOn_append_cons_self_of_not_mem hc,
        List.splitOn_intercalate c hws.1 hbefore, List.splitOn_intercalate c hws.2.2 hafter]
    refine ⟨[c].intercalate before, [c].intercalate after, ?_⟩
    rw [← hsplit, List.intercalate_splitOn]
    simp

end Shell
