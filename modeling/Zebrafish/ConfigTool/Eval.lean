import Zebrafish.ConfigTool.Names

/-!
# Zebrafish.ConfigTool.Eval

What a shell makes of `list --format shell`.

Each line assigns to the name of its leaf the text `get` prints there
(`Leaf.means`), whatever the strings of the configuration contain, short of a
NUL.  With distinct names a script of such lines is an environment, and
`list_shell_evaluates` reads it back.
-/

namespace Zebrafish.ConfigTool

open Toml Shell

/-! ## words -/

/-- The text of a leaf: what `get` prints of a scalar, the length of an
array. -/
def Leaf.text (D : Display) : Leaf → String
  | .scalar v => printed D v
  | .count n => toString n

/-- A character that is not quoted stands for itself. -/
theorem isPlain_of_isSafe {c : Char} (h : isSafe c) : isPlain c := by
  have hout : [' ', '\t', '|', '&', ';', '<', '>', '(', ')', '$', Char.ofNat 96, '"', '*',
      '?', '[', ']', '#', '~', '!', '{', '}', '^', '%', Char.ofNat 0].all
        (fun d => isSafe d = false) = true := by
    decide +kernel
  have hne : ∀ d, isSafe d = false → c ≠ d := by
    rintro d hd rfl
    rw [hd] at h
    cases h
  simp only [isPlain, isActive, Bool.and_eq_true, Bool.not_eq_true', decide_eq_true_eq,
    decide_eq_false_iff_not]
  refine ⟨⟨⟨?_, hne _ (by decide)⟩, hne _ (by decide)⟩, hne _ (by decide)⟩
  intro hmem
  exact hne c (of_decide_eq_true (List.all_eq_true.mp hout c hmem)) rfl

/-- What is quoted stands for the text. -/
theorem means_shellQuote {s : String} (hnul : Char.ofNat 0 ∉ s.toList) :
    Means (shellQuote s).toList s.toList := by
  unfold shellQuote
  split
  · next hsafe =>
      refine means_plain ?_
      rw [List.all_eq_true] at hsafe ⊢
      intro c hc
      exact isPlain_of_isSafe (hsafe c hc)
  · have hquoted := means_singleQuoted hnul
    unfold singleQuoted at hquoted
    simpa [String.toList_append] using hquoted

/-- A number stands for itself. -/
theorem means_digits (n : Nat) : Means (toString n).toList (toString n).toList := by
  refine means_plain (List.all_eq_true.mpr ?_)
  intro c hc
  have hlist : (toString n).toList = Nat.toDigits 10 n := Nat.toList_repr
  rw [hlist] at hc
  have hdigit : c.isDigit := Nat.isDigit_of_mem_toDigits (by decide) (by decide) hc
  exact isPlain_of_isSafe (by simp [isSafe, Char.isAlphanum, hdigit])

/-- A truth value stands for itself. -/
theorem means_boolText (b : Bool) : Means (boolText b).toList (boolText b).toList := by
  cases b <;> exact means_plain (by decide)

/-- The line of a leaf assigns its text. -/
theorem Leaf.means (D : Display) {t : Ty} {v : Value} {leaf : Leaf} (hs : Shaped t v)
    (hleaf : leafOf v = some leaf) (hnul : ∀ s, v = .string s → Char.ofNat 0 ∉ s.toList) :
    Means (leaf.rendered D).toList (leaf.text D).toList := by
  cases t with
  | string =>
      obtain ⟨s, rfl⟩ := hs
      cases hleaf
      exact means_shellQuote (hnul s rfl)
  | boolean =>
      obtain ⟨b, rfl⟩ := hs
      cases hleaf
      exact means_boolText b
  | unsigned bits =>
      obtain ⟨n, rfl, _⟩ := hs
      cases hleaf
      exact means_digits n
  | array t =>
      obtain ⟨items, rfl, _⟩ := hs
      cases hleaf
      exact means_digits items.length
  | table fields =>
      obtain ⟨l, rfl, _⟩ := hs
      cases hleaf

/-! ## names -/

/-- Digits may be in a name. -/
theorem all_isNameChar_digits (n : Nat) : (toString n).toList.all isNameChar := by
  rw [List.all_eq_true]
  intro c hc
  have hlist : (toString n).toList = Nat.toDigits 10 n := Nat.toList_repr
  rw [hlist] at hc
  have hdigit : c.isDigit := Nat.isDigit_of_mem_toDigits (by decide) (by decide) hc
  simp [isNameChar, Char.isAlphanum, hdigit]

/-- The fields on a path of a tidy type have proper names. -/
theorem validName_of_typeAt {path : List Segment} {t t' : Ty} (ht : t.every tidyFields)
    (hat : typeAt path t = some t') {k : String} (hk : Segment.field k ∈ path) :
    validName (mangle k).toList := by
  induction path generalizing t with
  | nil => cases hk
  | cons seg path ih =>
      cases t with
      | table fields =>
          cases seg with
          | index i => cases hat
          | field k' =>
              obtain ⟨⟨p, t₁⟩, hf, hat⟩ := Option.bind_eq_some_iff.mp hat
              have hmem := Assoc.mem_of_lookup hf
              simp only [Ty.every, Bool.and_eq_true] at ht
              obtain ⟨htidy, hevery⟩ := ht
              rcases List.mem_cons.mp hk with heq | hk
              · simp only [tidyFields, Bool.and_eq_true, List.all_eq_true] at htidy
                have hname := htidy.1 (k', p, t₁) hmem
                rw [Segment.field.inj heq]
                exact hname
              · exact ih (every_of_mem hevery hmem) hat hk
      | array t =>
          cases seg with
          | field k' => cases hat
          | index i =>
              rcases List.mem_cons.mp hk with heq | hk
              · cases heq
              · exact ih (t := t) ht hat hk
      | string | boolean | unsigned bits => cases seg <;> cases hat

/-- Names with underscores between them are names. -/
theorem all_isNameChar_joinNames {ss : List String} (h : ∀ s ∈ ss, s.toList.all isNameChar) :
    (joinNames ss).toList.all isNameChar := by
  induction ss with
  | nil => rfl
  | cons s ss ih =>
      have hs := h s List.mem_cons_self
      have hrest := ih fun x hx => h x (List.mem_cons_of_mem s hx)
      cases ss with
      | nil => exact hs
      | cons s' ss =>
          rw [joinNames]
          · simp [String.toList_append, hs, hrest, show isNameChar '_' = true by decide]
          · simp

/-- They are valid if the first of them is. -/
theorem validName_joinNames {s : String} {ss : List String} (hs : validName s.toList)
    (h : ∀ s' ∈ ss, s'.toList.all isNameChar) : validName (joinNames (s :: ss)).toList := by
  have hall : (joinNames (s :: ss)).toList.all isNameChar := by
    refine all_isNameChar_joinNames ?_
    intro x hx
    cases hx with
    | head => exact all_isNameChar_of_validName hs
    | tail _ hx => exact h x hx
  have hhead : ∃ rest, (joinNames (s :: ss)).toList = s.toList ++ rest := by
    cases ss with
    | nil => exact ⟨[], by simp [joinNames]⟩
    | cons s' ss => exact ⟨'_' :: (joinNames (s' :: ss)).toList, by simp [joinNames]⟩
  obtain ⟨rest, hrest⟩ := hhead
  rw [hrest] at hall ⊢
  cases hc : s.toList with
  | nil =>
      rw [hc] at hs
      cases hs
  | cons c cs =>
      rw [hc] at hs hall
      simp only [validName, List.cons_append, List.all_cons, Bool.and_eq_true] at hs hall ⊢
      exact ⟨hs.1, hall.2⟩

/-! ## what is listed -/

/-- The line of a leaf of the whole configuration. -/
def lineOf (D : Display) (l : List Segment × Leaf) : Line :=
  ⟨joinNames (parts l), l.2.rendered D⟩

/-- A leaf of a section, as one of the whole configuration. -/
def underSection (name : String) (l : List Segment × Leaf) : List Segment × Leaf :=
  (.field name :: l.1, l.2)

/-- The leaves that are listed. -/
def listed (cfg : Config) : Option String → Option (List (List Segment × Leaf))
  | none => some (leaves cfg.view)
  | some name =>
      (walkSegments [.field name] cfg.view).map fun v => (leaves v).map (underSection name)

/-- What is listed is a line for each value. -/
theorem listShell_eq (D : Display) (cfg : Config) (sec : Option String) :
    listShell D cfg sec = (listed cfg sec).map (List.map (lineOf D)) := by
  cases sec with
  | none => simp [listShell, listed, emitShell_eq, lineOf]
  | some name =>
      simp only [listShell, listed]
      cases hv : walkSegments [.field name] cfg.view with
      | none => simp
      | some v =>
          simp only [emitShell_eq, Option.map_some, List.map_map]
          rfl

/-- The values of two lists of entries. -/
theorem leavesOfEntries_append (es es' : Entries) :
    leavesOfEntries (es ++ es') = leavesOfEntries es ++ leavesOfEntries es' := by
  induction es with
  | nil => rfl
  | cons e es ih =>
      obtain ⟨k, v⟩ := e
      simp [leavesOfEntries, ih]

/-- A configuration is a table of sections. -/
theorem Config.view_table (c : Config) : ∃ entries, c.view = .table entries :=
  ⟨_, rfl⟩

/-- The sections of a configuration. -/
def Config.sections (c : Config) : List String :=
  match c.view with
  | .table entries => keys entries
  | _ => []

/-- The sections are what is found under one key. -/
theorem Config.mem_sections {c : Config} {k : String} :
    k ∈ c.sections ↔ ∃ v, walkSegments [.field k] c.view = some v := by
  have hdistinct := c.tidy_view.distinctKeys
  obtain ⟨entries, hview⟩ := c.view_table
  rw [Config.sections, hview]
  rw [hview] at hdistinct
  constructor
  · intro hk
    obtain ⟨⟨k, v⟩, hmem, rfl⟩ := List.mem_map.mp hk
    exact ⟨v, by simp [walkSegments, Assoc.lookup_of_mem (hdistinct [] entries rfl) hmem]⟩
  · rintro ⟨v, hv⟩
    obtain ⟨x, hx, _⟩ := Option.bind_eq_some_iff.mp hv
    exact List.mem_map.mpr ⟨_, Assoc.mem_of_lookup hx, rfl⟩

/-- Every leaf of a configuration is one of a section. -/
theorem Config.leaf_section {c : Config} {l : List Segment × Leaf} (h : l ∈ leaves c.view) :
    ∃ k v l', walkSegments [.field k] c.view = some v ∧ l' ∈ leaves v ∧
      l = underSection k l' := by
  obtain ⟨entries, hview⟩ := c.view_table
  have hdistinct := c.tidy_view.distinctKeys
  rw [hview] at h hdistinct ⊢
  rw [leaves, mem_leavesOfEntries] at h
  obtain ⟨k, v, l', hmem, hl', rfl⟩ := h
  have hk := Assoc.lookup_of_mem (hdistinct [] entries rfl) hmem
  exact ⟨k, v, l', by simp [walkSegments, hk], hl', rfl⟩

/-- What is listed of a section is listed of the whole. -/
theorem listed_subset {cfg : Config} {sec : Option String} {ls : List (List Segment × Leaf)}
    (h : listed cfg sec = some ls) : ls.Sublist (leaves cfg.view) := by
  cases sec with
  | none =>
      cases h
      exact List.Sublist.refl _
  | some name =>
      obtain ⟨v, hv, rfl⟩ := Option.map_eq_some_iff.mp h
      obtain ⟨entries, hview⟩ := cfg.view_table
      rw [hview] at hv ⊢
      obtain ⟨x, hx, hxv⟩ := Option.bind_eq_some_iff.mp hv
      cases hxv
      obtain ⟨es, es', hes, _⟩ := List.lookup_eq_some_iff.mp hx
      rw [leaves, hes, leavesOfEntries_append, leavesOfEntries]
      exact (List.sublist_append_left _ _).trans (List.sublist_append_right _ _)

/-- The lines of a section stand together. -/
theorem listed_block {cfg : Config} {name : String} {ls : List (List Segment × Leaf)}
    (h : listed cfg (some name) = some ls) :
    ∃ pre post, leaves cfg.view = pre ++ ls ++ post ∧
      (∀ l ∈ ls, ∃ v l', walkSegments [.field name] cfg.view = some v ∧ l' ∈ leaves v ∧
        l = underSection name l') ∧
      ∀ l ∈ pre ++ post, ∃ k v l', k ≠ name ∧ walkSegments [.field k] cfg.view = some v ∧
        l' ∈ leaves v ∧ l = underSection k l' := by
  obtain ⟨v, hv, rfl⟩ := Option.map_eq_some_iff.mp h
  have hdistinct := cfg.tidy_view.distinctKeys
  obtain ⟨entries, hview⟩ := cfg.view_table
  rw [hview] at hv hdistinct ⊢
  obtain ⟨x, hx, hxv⟩ := Option.bind_eq_some_iff.mp hv
  cases hxv
  obtain ⟨es, es', hes, _⟩ := List.lookup_eq_some_iff.mp hx
  have hnodup := hdistinct [] entries rfl
  refine ⟨leavesOfEntries es, leavesOfEntries es', ?_, ?_, ?_⟩
  · rw [leaves, hes, leavesOfEntries_append, leavesOfEntries]
    simp [underSection]
  · intro l hl
    obtain ⟨l', hl', rfl⟩ := List.mem_map.mp hl
    exact ⟨v, l', hv, hl', rfl⟩
  · intro l hl
    rw [← leavesOfEntries_append, mem_leavesOfEntries] at hl
    obtain ⟨k, w, l', hmem, hl', rfl⟩ := hl
    have hmem' : (k, w) ∈ entries := by
      rw [hes]
      rcases List.mem_append.mp hmem with hm | hm
      · exact List.mem_append_left _ hm
      · exact List.mem_append_right _ (List.mem_cons_of_mem _ hm)
    refine ⟨k, w, l', ?_, by simp [walkSegments, Assoc.lookup_of_mem hnodup hmem'], hl', rfl⟩
    rintro rfl
    rw [keys, hes, List.map_append, List.map_cons, List.nodup_middle, List.nodup_cons,
      ← List.map_append] at hnodup
    exact hnodup.1 (List.mem_map.mpr ⟨_, hmem, rfl⟩)

/-! ## names of leaves -/

/-- A name starts with that of its section. -/
theorem name_underSection (k : String) (l : List Segment × Leaf) :
    (joinNames (parts (underSection k l))).toList =
      (mangle k).toList ++ spelled (parts l) := by
  have hparts : parts (underSection k l) = mangle k :: parts l := rfl
  have hne : mangle k :: parts l ≠ [] := by simp
  have hcons := cons_joinNames hne
  rw [spelled_cons] at hcons
  rw [hparts]
  exact (List.cons.inj hcons).2

/-- Listed lines have distinct names. -/
theorem nodup_names (c : Config) :
    ((leaves c.view).map fun l => joinNames (parts l)).Nodup := by
  have hnodup := nodup_leafNames c.tidy_view
  have hspelled : leafNames c.view =
      ((leaves c.view).map fun l => joinNames (parts l)).map fun s => '_' :: s.toList := by
    rw [leafNames, List.map_map]
    refine List.map_congr_left ?_
    intro l hl
    obtain ⟨k, v, l', _, _, rfl⟩ := Config.leaf_section hl
    have hne : parts (underSection k l') ≠ [] := by simp [parts, underSection]
    exact (cons_joinNames hne).symm
  rw [hspelled] at hnodup
  exact hnodup.of_map _

/-- The name of a value is valid. -/
theorem validName_of_mem {c : Config} {l : List Segment × Leaf} (h : l ∈ leaves c.view) :
    validName (joinNames (parts l)).toList := by
  obtain ⟨w, hw, _⟩ := (mem_leaves c.tidy_view.distinctKeys).mp h
  obtain ⟨t', hat, _⟩ := shaped_walk distinctFields_of_tidy Config.tidy_ty c.shaped_view hw
  obtain ⟨k, v, l', _, _, rfl⟩ := Config.leaf_section h
  have hfields : ∀ k', Segment.field k' ∈ (underSection k l').1 → validName (mangle k').toList :=
    fun k' hk' => validName_of_typeAt Config.tidy_ty hat hk'
  have hparts : parts (underSection k l') = mangle k :: parts l' := rfl
  rw [hparts]
  refine validName_joinNames (hfields k List.mem_cons_self) ?_
  intro s hs
  rcases List.mem_append.mp hs with hs | hs
  · obtain ⟨seg, hseg, rfl⟩ := List.mem_map.mp hs
    cases seg with
    | field k' =>
        exact all_isNameChar_of_validName (hfields k' (List.mem_cons_of_mem _ hseg))
    | index i => exact all_isNameChar_digits i
  · cases hl : l'.2 with
    | scalar v => simp [hl] at hs
    | count n =>
        simp only [hl, List.mem_singleton] at hs
        subst hs
        decide

/-! ## sections -/

def isTableTy : Ty → Bool
  | .table _ => true
  | _ => false

/-- A section is a table or an array. -/
theorem sectionTys_not_scalar :
    ∀ f ∈ sectionTys, isArrayTy f.2.2 = true ∨ isTableTy f.2.2 = true := by
  have hall : sectionTys.all (fun f => isArrayTy f.2.2 || isTableTy f.2.2) = true := by
    decide +kernel
  simpa using hall

/-- So the names in it go on behind that of the section. -/
theorem Config.hangs_section {c : Config} {k : String} {v : Value} {l : List Segment × Leaf}
    (hv : walkSegments [.field k] c.view = some v) (hl : l ∈ leaves v) :
    Hangs (isArrayValue v) (spelled (parts l)) ∧ ∃ t, spelled (parts l) = '_' :: t := by
  have hangs := hangs_of_mem hl
  refine ⟨hangs, ?_⟩
  obtain ⟨t, hat, hs⟩ := shaped_walk distinctFields_of_tidy Config.tidy_ty c.shaped_view hv
  obtain ⟨f, hf, hft⟩ := Option.bind_eq_some_iff.mp hat
  cases hft
  rcases sectionTys_not_scalar (k, f) (Assoc.mem_of_lookup hf) with harr | htab
  · rw [isArrayValue_of_shaped hs] at hangs
    obtain ⟨d, t, ht, _⟩ := hangs.array harr
    exact ⟨d :: t, ht⟩
  · cases hf2 : f.2 with
    | table fields =>
        rw [hf2] at hs
        obtain ⟨entries, rfl, _⟩ := hs
        rw [leaves, mem_leavesOfEntries] at hl
        obtain ⟨k', v', l', _, _, rfl⟩ := hl
        exact ⟨_, spelled_cons _ _⟩
    | string | boolean | unsigned bits | array t =>
        rw [hf2] at htab
        cases htab

/-- A name belongs to a section if it goes on behind that section's, and not
behind the longer one of another section. -/
def Owns (sections : List String) (sec : String) (name : List Char) : Prop :=
  (mangle sec).toList ++ ['_'] <+: name ∧
    ∀ k ∈ sections, k ≠ sec → (mangle sec).toList ++ ['_'] <+: (mangle k).toList ++ ['_'] →
      ¬ (mangle k).toList ++ ['_'] <+: name

/-- Two sections stay apart. -/
theorem Config.apart_sections {c : Config} {k k' : String} {v v' : Value}
    (hv : walkSegments [.field k] c.view = some v) (hv' : walkSegments [.field k'] c.view = some v')
    (hne : k ≠ k') : apartKeys k (isArrayValue v) k' := by
  have htidy := c.tidy_view
  obtain ⟨entries, hview⟩ := c.view_table
  rw [hview] at hv hv' htidy
  obtain ⟨x, hx, hxv⟩ := Option.bind_eq_some_iff.mp hv
  cases hxv
  obtain ⟨x', hx', hxv'⟩ := Option.bind_eq_some_iff.mp hv'
  cases hxv'
  have hsymm : Std.Symm fun e e' : String × Value =>
      apartKeys e.1 (isArrayValue e.2) e'.1 = true ∧
        apartKeys e'.1 (isArrayValue e'.2) e.1 = true :=
    ⟨fun _ _ h => ⟨h.2, h.1⟩⟩
  have hall := (htidy [] entries rfl).forall
  have hne' : (k, v) ≠ (k', v') := by
    intro heq
    exact hne (Prod.mk.inj heq).1
  exact (hall (Assoc.mem_of_lookup hx) (Assoc.mem_of_lookup hx') hne').1

/-- Below a section that stays apart from another, no name starts like the
other's. -/
theorem not_prefix_of_apart {k k' : String} {isArray : Bool} (h : apartKeys k isArray k')
    {s : List Char} (hs : Hangs isArray s)
    (hpre : (mangle k).toList ++ ['_'] <+: (mangle k').toList ++ ['_']) :
    ¬ (mangle k').toList ++ ['_'] <+: (mangle k).toList ++ s := by
  rintro ⟨rest, hrest⟩
  obtain ⟨more, hmore⟩ := hpre
  have hlen := congrArg List.length hmore
  simp only [List.length_append, List.length_singleton] at hlen
  obtain ⟨r, hr⟩ : ∃ r, (mangle k').toList = (mangle k).toList ++ r := by
    have hk : (mangle k).toList <+: (mangle k').toList ++ ['_'] :=
      ⟨'_' :: more, by simpa using hmore⟩
    obtain ⟨r, hr⟩ := List.prefix_of_prefix_length_le hk (List.prefix_append _ ['_']) (by omega)
    exact ⟨r, hr.symm⟩
  rw [hr] at hrest
  have hs' : s = r ++ '_' :: rest := by simpa using hrest.symm
  exact ne_append_of_apart h hs hr hs'

/-- The names below a section are its own. -/
theorem Config.owns_self {c : Config} {k : String} {v : Value} {l : List Segment × Leaf}
    (hv : walkSegments [.field k] c.view = some v) (hl : l ∈ leaves v) :
    Owns c.sections k ((mangle k).toList ++ spelled (parts l)) := by
  obtain ⟨hangs, t, ht⟩ := Config.hangs_section hv hl
  refine ⟨⟨t, by rw [ht]; simp⟩, ?_⟩
  intro k' hk' hne hpre
  obtain ⟨v', hv'⟩ := Config.mem_sections.mp hk'
  exact not_prefix_of_apart (Config.apart_sections hv hv' (Ne.symm hne)) hangs hpre

/-- The names below another are not. -/
theorem Config.not_owns_other {c : Config} {k k' : String} {v v' : Value}
    {l : List Segment × Leaf} (hv : walkSegments [.field k] c.view = some v)
    (hv' : walkSegments [.field k'] c.view = some v') (hne : k' ≠ k) (hl : l ∈ leaves v') :
    ¬ Owns c.sections k ((mangle k').toList ++ spelled (parts l)) := by
  rintro ⟨hown, hother⟩
  obtain ⟨hangs, t, ht⟩ := Config.hangs_section hv' hl
  have hself : (mangle k').toList ++ ['_'] <+: (mangle k').toList ++ spelled (parts l) :=
    ⟨t, by rw [ht]; simp⟩
  rcases List.prefix_or_prefix_of_prefix hown hself with hpre | hpre
  · exact hother k' (Config.mem_sections.mpr ⟨v', hv'⟩) hne hpre hself
  · exact not_prefix_of_apart (Config.apart_sections hv' hv hne) hangs hpre hown

/-! ## evaluation -/

/-- No string of a configuration contains a NUL. -/
def NoNul (c : Config) : Prop :=
  ∀ path s, walkSegments path c.view = some (.string s) → Char.ofNat 0 ∉ s.toList

/-- The upper-cased, underscore-joined name of a path. -/
def shellName (path : List Segment) : String := joinNames (path.map Segment.part)

/-- A path is listed: it is in the section, if only one is. -/
def Lists (sec : Option String) (path : List Segment) : Prop :=
  ∀ name, sec = some name → path.head? = some (.field name)

/-- What is listed evaluates to the values, one assignment each. -/
theorem assignments_listed (D : Display) {c : Config} (hnul : NoNul c)
    {ls : List (List Segment × Leaf)} (hsub : ls.Sublist (leaves c.view)) :
    assignments (script (ls.map (lineOf D))) =
      some (ls.map fun l => (joinNames (parts l), l.2.text D)) := by
  have hscript : script (ls.map (lineOf D)) =
      String.join (ls.map fun l => line (joinNames (parts l)) (l.2.rendered D)) := by
    simp only [script, List.map_map]
    rfl
  rw [hscript]
  refine assignments_script ls _ _ (fun l => l.2.text D) ?_
  intro l hl
  have hmem := hsub.subset hl
  refine ⟨validName_of_mem hmem, ?_⟩
  obtain ⟨w, hw, hleaf⟩ := (mem_leaves c.tidy_view.distinctKeys).mp hmem
  obtain ⟨t, _, hs⟩ := shaped_walk distinctFields_of_tidy Config.tidy_ty c.shaped_view hw
  exact Leaf.means D hs hleaf fun s hws => hnul l.1 s (by rw [hw, hws])

/-- A leaf on a listed path is listed. -/
theorem mem_listed {c : Config} {sec : Option String} {ls : List (List Segment × Leaf)}
    (h : listed c sec = some ls) {path : List Segment} {leaf : Leaf} {w : Value}
    (hlists : Lists sec path) (hw : walkSegments path c.view = some w)
    (hleaf : leafOf w = some leaf) : (path, leaf) ∈ ls := by
  cases sec with
  | none =>
      cases h
      exact (mem_leaves c.tidy_view.distinctKeys).mpr ⟨w, hw, hleaf⟩
  | some name =>
      obtain ⟨v, hv, rfl⟩ := Option.map_eq_some_iff.mp h
      have hdistinct := c.tidy_view.distinctKeys
      obtain ⟨entries, hview⟩ := c.view_table
      rw [hview] at hv hw hdistinct
      obtain ⟨x, hx, hxv⟩ := Option.bind_eq_some_iff.mp hv
      cases hxv
      obtain ⟨tail, rfl⟩ : ∃ tail, path = .field name :: tail := by
        cases path with
        | nil => cases hlists name rfl
        | cons seg tail =>
            have hhead := hlists name rfl
            cases hhead
            exact ⟨tail, rfl⟩
      obtain ⟨y, hy, hw⟩ := Option.bind_eq_some_iff.mp hw
      rw [hx] at hy
      cases hy
      have hmem := (mem_leaves (hdistinct.entry (Assoc.mem_of_lookup hx))).mpr ⟨w, hw, hleaf⟩
      exact List.mem_map.mpr ⟨_, hmem, rfl⟩

/-- **Listing for the shell.**  The lines printed for a configuration, or for
one of its sections, are a script that only assigns, and no variable twice.
At every scalar the variable named by its path gets exactly what `get` prints
there, and at every array its length.  The lines of a section are the ones of
the whole that belong to it, in one piece. -/
theorem list_shell_evaluates (D : Display) (c : Config) (hnul : NoNul c) (sec : Option String)
    (lines : List Line) (hlist : listShell D c sec = some lines) :
    ∃ env, assignments (script lines) = some env ∧ (env.map Prod.fst).Nodup ∧
      (∀ path v, walkSegments path c.view = some v → v.isScalar → Lists sec path →
        ∃ text, valueOf env (shellName path) = some text ∧
          ∀ (key : KeyPath) (s : String), KeyPath.parse s = some key → key.segments = path →
            getKey D c key ⟨s, none, false⟩ = .ok ⟨text, 0⟩) ∧
      (∀ path items, walkSegments path c.view = some (.array items) → items ≠ [] →
        Lists sec path →
          valueOf env (joinNames (path.map Segment.part ++ ["COUNT"])) =
            some (toString items.length)) ∧
      (∀ name, sec = some name → ∃ pre post,
        listShell D c none = some (pre ++ lines ++ post) ∧
          (∀ l ∈ lines, Owns c.sections name l.name.toList) ∧
          ∀ l ∈ pre ++ post, ¬ Owns c.sections name l.name.toList) := by
  rw [listShell_eq] at hlist
  obtain ⟨ls, hls, rfl⟩ := Option.map_eq_some_iff.mp hlist
  have hsub := listed_subset hls
  have hnodup : ((ls.map fun l => (joinNames (parts l), l.2.text D)).map Prod.fst).Nodup := by
    rw [List.map_map]
    exact (hsub.map _).nodup (nodup_names c)
  refine ⟨_, assignments_listed D hnul hsub, hnodup, ?_, ?_, ?_⟩
  · intro path v hv hscalar hlists
    have hleaf : leafOf v = some (.scalar v) := by
      cases v with
      | array items => cases hscalar
      | table entries => cases hscalar
      | _ => rfl
    have hmem := mem_listed hls hlists hv hleaf
    refine ⟨printed D v, ?_, ?_⟩
    · refine valueOf_of_mem hnodup (List.mem_map.mpr ⟨_, hmem, ?_⟩)
      simp [shellName, parts, Leaf.text]
    · rintro key s _ rfl
      simp [getKey, KeyPath.lookup, hv]
  · intro path items hv _ hlists
    have hmem := mem_listed hls hlists hv rfl
    exact valueOf_of_mem hnodup (List.mem_map.mpr ⟨_, hmem, rfl⟩)
  · rintro name rfl
    obtain ⟨pre, post, hwhole, hin, hout⟩ := listed_block hls
    refine ⟨pre.map (lineOf D), post.map (lineOf D), ?_, ?_, ?_⟩
    · rw [listShell_eq, listed, hwhole]
      simp
    · intro l hl
      obtain ⟨leaf, hleaf, rfl⟩ := List.mem_map.mp hl
      obtain ⟨v, l', hv, hl', rfl⟩ := hin leaf hleaf
      rw [lineOf, name_underSection]
      exact Config.owns_self hv hl'
    · intro l hl
      rw [← List.map_append] at hl
      obtain ⟨leaf, hleaf, rfl⟩ := List.mem_map.mp hl
      obtain ⟨v, hv, _⟩ := Option.map_eq_some_iff.mp hls
      obtain ⟨k, v', l', hne, hv', hl', rfl⟩ := hout leaf hleaf
      rw [lineOf, name_underSection]
      exact Config.not_owns_other hv hv' hne hl'

/-- A configuration without any section. -/
def Config.empty : Config :=
  ⟨none, none, none, none, none, none, none, none, [], [], [], [], [], [], []⟩

/-- A host name that would run a command, were it not quoted. -/
def trickyHost : Config := { Config.empty with hostname := some ⟨"it's $(reboot)"⟩ }

/-- A display for configurations, in which nothing is left to display. -/
def noDisplay : Display := ⟨fun _ => "", fun _ => ""⟩

/-- The shell gets the host name as it is. -/
theorem list_shell_tricky_host :
    ∃ lines env, listShell noDisplay trickyHost none = some lines ∧
      assignments (script lines) = some env ∧
      valueOf env "HOSTNAME_NAME" = some "it's $(reboot)" := by
  have hnul : NoNul trickyHost := by
    intro path s hw
    have hmem := (mem_leaves trickyHost.tidy_view.distinctKeys).mpr ⟨_, hw, rfl⟩
    have hleaves : leaves trickyHost.view =
        [([.field "hostname", .field "name"], .scalar (.string "it's $(reboot)"))] := rfl
    rw [hleaves, List.mem_singleton] at hmem
    cases hmem
    decide
  obtain ⟨env, henv, _, hscalar, _⟩ :=
    list_shell_evaluates noDisplay trickyHost hnul none _ rfl
  obtain ⟨text, hvalue, hget⟩ :=
    hscalar [.field "hostname", .field "name"] (.string "it's $(reboot)") rfl rfl
      (by intro name h; cases h)
  have hkey : KeyPath.parse "hostname.name" =
      some ⟨[.field "hostname", .field "name"], by simp⟩ := by
    decide +kernel
  have hprinted := hget _ _ hkey rfl
  refine ⟨_, env, rfl, henv, ?_⟩
  cases hprinted
  exact hvalue

end Zebrafish.ConfigTool
