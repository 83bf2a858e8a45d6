import Mathlib.Algebra.BigOperators.Group.List.Basic
import Mathlib.Data.List.TakeWhile
import Zebrafish.System.WireGuard

/-!
# Zebrafish.System.Tunnels

How many tunnels get a file.

The script counts the interfaces by counting lines, and there is one line with
a count, so it sees one interface.  `wg_files_iff` says for which
configurations it writes one file for each interface nevertheless.
-/

namespace Zebrafish.System.WireGuard

open Toml Shell ConfigTool

/-! ## what is counted -/

def Leaf.string? : Leaf → Option String
  | .scalar (.string s) => some s
  | _ => none

/-- The strings in a section. -/
def sectionStrings (c : Config) (sec : String) : List String :=
  match listed c (some sec) with
  | some ls => ls.filterMap fun l => Leaf.string? l.2
  | none => []

/-- Quotes do not hide a word. -/
theorem isPrefixOf_quotes {word : List Char} (h : '\'' ∉ word) (cs : List Char) :
    word.isPrefixOf ((cs.flatMap fun c =>
      if c = '\'' then ['\'', '\\', '\'', '\''] else [c]) ++ ['\'']) = word.isPrefixOf cs := by
  induction cs generalizing word with
  | nil => simpa using isPrefixOf_append h [] []
  | cons c cs ih =>
      cases word with
      | nil => simp
      | cons d word =>
          simp only [List.mem_cons, not_or] at h
          by_cases hc : c = '\''
          · have hd : (d == c) = false := by simpa [hc] using Ne.symm h.1
            subst hc
            simp [List.isPrefixOf, hd]
          · simp [hc, List.isPrefixOf, ih h.2]

/-- Quotes do not change what is counted in a text. -/
theorem behindNewline_shellQuote {word : List Char} (h : '\'' ∉ word) (s : String) :
    behindNewline word (shellQuote s).toList = behindNewline word s.toList := by
  have hquotes : ∀ cs : List Char, behindNewline word ((cs.flatMap fun c =>
      if c = '\'' then ['\'', '\\', '\'', '\''] else [c]) ++ ['\'']) =
        behindNewline word cs := by
    intro cs
    induction cs with
    | nil => simp [behindNewline]
    | cons c cs ih =>
        rw [List.flatMap_cons, List.append_assoc]
        by_cases hc : c = '\''
        · subst hc
          rw [if_pos rfl, behindNewline_append (by simp), ih, behindNewline]
          simp
        · rw [if_neg hc, List.singleton_append, behindNewline, ih, isPrefixOf_quotes h,
            behindNewline]
  rw [shellQuote]
  split
  · rfl
  · simp only [String.toList_append, String.toList_ofList, List.append_assoc]
    rw [behindNewline_append (by simp)]
    exact hquotes s.toList

/-- What is counted in the word of a leaf is in its string. -/
theorem behindNewline_rendered (D : Display) {t : Ty} {v : Value} {leaf : Leaf}
    (hs : Shaped t v) (hleaf : leafOf v = some leaf) {word : List Char} (h : '\'' ∉ word) :
    behindNewline word (leaf.rendered D).toList =
      ((Leaf.string? leaf).map fun s => behindNewline word s.toList).getD 0 := by
  have hplain : ∀ s : String, s.toList.all isNameChar → behindNewline word s.toList = 0 := by
    intro s hchars
    have hline := behindNewline_append (a := s.toList) (fun c hc => by
      have hname := List.all_eq_true.mp hchars c hc
      constructor <;> rintro rfl <;> revert hname <;> decide) word []
    simpa [behindNewline] using hline
  cases t with
  | string =>
      obtain ⟨s, rfl⟩ := hs
      cases hleaf
      exact behindNewline_shellQuote h s
  | boolean =>
      obtain ⟨b, rfl⟩ := hs
      cases hleaf
      exact hplain (boolText b) (by cases b <;> decide)
  | unsigned bits =>
      obtain ⟨n, rfl, _⟩ := hs
      cases hleaf
      exact hplain _ (all_isNameChar_digits n)
  | array t =>
      obtain ⟨items, rfl, _⟩ := hs
      cases hleaf
      exact hplain _ (all_isNameChar_digits items.length)
  | table fields =>
      obtain ⟨l, rfl, _⟩ := hs
      cases hleaf

/-- A line counts if its name is that of the count, and for what is in its
word. -/
theorem grepCount_line {name : String} (h : name.toList.all isNameChar) (rendered : List Char) :
    grepCount countWord (name.toList ++ '=' :: rendered) =
      (if name = "WG_COUNT" then 1 else 0) + behindNewline countWord rendered := by
  have hchars : ∀ c ∈ name.toList ++ ['='], c ≠ '\n' ∧ c ≠ Char.ofNat 0 := by
    intro c hc
    rcases List.mem_append.mp hc with hc | hc
    · have hname := List.all_eq_true.mp h c hc
      constructor <;> rintro rfl <;> revert hname <;> decide
    · rw [List.mem_singleton.mp hc]
      decide
  have hbehind := behindNewline_append hchars countWord rendered
  have heq : '=' ∉ name.toList := by
    intro hc
    have hname := List.all_eq_true.mp h _ hc
    revert hname
    decide
  have hstarts : countWord.isPrefixOf (name.toList ++ '=' :: rendered) = true ↔
      name = "WG_COUNT" := by
    rw [List.isPrefixOf_iff_prefix, show countWord = "WG_COUNT".toList ++ ['='] by decide]
    constructor
    · rintro ⟨rest, hrest⟩
      rw [List.append_assoc, List.singleton_append] at hrest
      exact String.toList_inj.mp (append_cons_inj (by decide) heq hrest).1.symm
    · rintro rfl
      exact ⟨rendered, by simp⟩
  rw [grepCount, ← hbehind, List.append_assoc, List.singleton_append]
  simp [hstarts]

/-- What is counted in a script of leaves. -/
theorem grepCount_script (D : Display) {c : Config} {ls : List (List Segment × Leaf)}
    (hsub : ∀ l ∈ ls, l ∈ leaves c.view) :
    grepCount countWord (script (ls.map (lineOf D))).toList =
      (ls.map fun l => joinNames (parts l)).count "WG_COUNT" +
        ((ls.filterMap fun l => Leaf.string? l.2).map fun s =>
          behindNewline countWord s.toList).sum := by
  induction ls with
  | nil => rfl
  | cons l ls ih =>
      obtain ⟨hl, hrest⟩ := List.forall_mem_cons.mp hsub
      have hnames := all_isNameChar_of_validName (validName_of_mem hl)
      obtain ⟨w, hw, hleaf⟩ := (mem_leaves c.tidy_view.distinctKeys).mp hl
      obtain ⟨t, _, hs⟩ := shaped_walk distinctFields_of_tidy Config.tidy_ty c.shaped_view hw
      have hscript : (script ((l :: ls).map (lineOf D))).toList =
          ((joinNames (parts l)).toList ++ '=' :: (l.2.rendered D).toList) ++
            '\n' :: (script (ls.map (lineOf D))).toList := by
        simp [script, String.join_cons, line, lineOf]
      rw [hscript, grepCount_append (by decide), grepCount_line hnames,
        behindNewline_rendered D hs hleaf (by decide), ih hrest, List.map_cons,
        List.count_cons, List.filterMap_cons]
      cases hstring : Leaf.string? l.2 <;> simp <;> omega

/-- What is counted: the line of the count, and lines in strings that look like
it. -/
theorem grepCount_listOutput (D : Display) (c : Config) :
    grepCount countWord (listOutput D c "wg").toList =
      if c.wg = [] then 0
      else
        1 + ((sectionStrings c "wg").map fun s => behindNewline countWord s.toList).sum := by
  have hwalk := Config.walk_wg c []
  rw [listOutput, listShell_eq, sectionStrings]
  by_cases hwg : c.wg = []
  · rw [hwg] at hwalk
    have hlisted : listed c (some "wg") = none := by
      rw [listed, hwalk]
      rfl
    rw [hlisted, hwg]
    rfl
  · have hempty : c.wg.isEmpty = false := by simpa using hwg
    rw [hempty] at hwalk
    have hlisted : listed c (some "wg") = some
        ((leaves (WireGuardInterface.codec.array.ser c.wg)).map (underSection "wg")) := by
      rw [listed, hwalk]
      rfl
    have hsub := (listed_subset hlisted).subset
    have hlists : Lists (some "wg") [.field "wg"] := by
      rintro name ⟨⟩
      rfl
    have hleaf : leafOf (WireGuardInterface.codec.array.ser c.wg) = some (.count c.wg.length) := by
      simp [Codec.array, leafOf]
    have hmem := mem_listed hlisted hlists hwalk hleaf
    have hnodup := ((listed_subset hlisted).map fun l => joinNames (parts l)).nodup
      (nodup_names c)
    have hcount := List.count_eq_one_of_mem hnodup (List.mem_map_of_mem hmem)
    have hname : joinNames (parts ([.field "wg"], .count c.wg.length)) = "WG_COUNT" := by
      have hparts : parts ([.field "wg"], .count c.wg.length) = ["WG", "COUNT"] := rfl
      rw [hparts]
      decide
    rw [hname] at hcount
    simp only [hlisted, Option.map_some]
    rw [grepCount_script D hsub, hcount, if_neg hwg]

/-- How many files the script sets out to write. -/
def counted (c : Config) : Nat :=
  if c.wg = [] then 0
  else 1 + ((sectionStrings c "wg").map fun s => behindNewline countWord s.toList).sum

/-- The count is that of the lines with the word. -/
theorem wgCount_eq (D : Display) (c : Config) :
    ∃ vars, wgCount D c [] = some (counted c, vars) ∧ Quiet D c vars := by
  rw [wgCount, grepCount_listOutput, ← counted]
  by_cases hwg : c.wg = []
  · have hsees := (Quiet.nil (D := D) (c := c)).sees
    have hcount := hsees [.field "wg"] true ⟨WireGuardInterface.codec.array.ty, rfl, rfl, rfl⟩ rfl
    rw [show varName [.field "wg"] true = "WG_COUNT" by decide, textAt,
      textIn_count D (Config.walk_wg c), hwg] at hcount
    refine ⟨_, ?_, Quiet.nil.eval⟩
    have hzero : counted c = 0 := by rw [counted, if_pos hwg]
    rw [hzero, if_pos rfl, evalOutput_listOutput, Option.bind_eq_bind, Option.bind_some, derefOr,
      hcount]
    rfl
  · have hpos : counted c ≠ 0 := by
      rw [counted, if_neg hwg]
      omega
    exact ⟨[], by rw [if_neg hpos], Quiet.nil⟩

/-! ## one file for each interface -/

/-- The configured name, or `wg<index>`. -/
def effectiveName (i : Nat) (w : WireGuardInterface) : String := w.name.getD ("wg" ++ toString i)

/-- The files there should be. -/
def wanted (c : Config) : List String := c.wg.mapIdx fun i w => confPath (effectiveName i w)

/-- Different names have different files. -/
theorem confPath_inj {a b : String} (h : confPath a = confPath b) : a = b := by
  unfold confPath at h
  exact (String.append_right_inj _).mp ((String.append_left_inj _).mp h)

/-- A name the shell can hold. -/
def Holds (name : Option String) : Prop :=
  ∀ s, name = some s → s ≠ "" ∧ Char.ofNat 0 ∉ s.toList

/-- The file of an interface. -/
theorem pathOf_eq {c : Config} {i : Nat} {w : WireGuardInterface} (hw : c.wg[i]? = some w)
    (h : Holds w.name) : pathOf c i = confPath (effectiveName i w) := by
  rw [pathOf, effectiveName, hw, Option.bind_some]
  cases hname : w.name with
  | none => rfl
  | some s =>
      obtain ⟨hne, hnul⟩ := h s hname
      rw [Option.map_some, dropNul_of_not_mem hnul, orDefault, if_neg hne]
      rfl

/-- Whatever name a file gets, the shell can hold it. -/
theorem holds_pathOf {c : Config} {i : Nat} {s : String} (h : pathOf c i = confPath s) :
    s ≠ "" ∧ Char.ofNat 0 ∉ s.toList := by
  have hs := confPath_inj h
  have hdefault : "wg" ++ toString i ≠ "" ∧ Char.ofNat 0 ∉ ("wg" ++ toString i).toList := by
    constructor
    · intro hempty
      have hlist := congrArg String.toList hempty
      simp at hlist
    · rw [String.toList_append, List.mem_append, not_or]
      exact ⟨by decide, nul_not_mem_name (all_isNameChar_digits i)⟩
  rw [← hs]
  cases (c.wg[i]?.bind WireGuardInterface.name) with
  | none => exact hdefault
  | some t =>
      rw [Option.map_some, orDefault]
      split
      · exact hdefault
      · next hne => exact ⟨hne, by simp [toList_dropNul, clean]⟩

/-- When exactly the files wanted are written. -/
theorem createWgConfigs_iff (canWrite : String → Bool) (D : Display) (c : Config) :
    (∃ files, createWgConfigs canWrite D c = some ⟨files, true⟩ ∧
        (files.map (·.path)).Perm (wanted c)) ↔
      (∀ i < counted c, canWrite (pathOf c i)) ∧
        ((List.range (counted c)).map (pathOf c)).Perm (wanted c) := by
  obtain ⟨vars, hcount, hquiet⟩ := wgCount_eq D c
  obtain ⟨written, hwritten, hfinished, hpaths, _⟩ :=
    writeConfigs_spec canWrite hquiet (List.range (counted c))
  have hcreate : createWgConfigs canWrite D c = some written := by
    rw [createWgConfigs, hcount]
    exact hwritten
  have hall : written.finished = true ↔ ∀ i < counted c, canWrite (pathOf c i) := by
    rw [hfinished, List.all_eq_true]
    simp
  have hwhole (hcan : ∀ i < counted c, canWrite (pathOf c i)) :
      written.files.map (·.path) = (List.range (counted c)).map (pathOf c) := by
    rw [hpaths, List.takeWhile_eq_self_iff]
    intro path hpath
    obtain ⟨i, hi, rfl⟩ := List.mem_map.mp hpath
    exact hcan i (List.mem_range.mp hi)
  constructor
  · rintro ⟨files, hfiles, hperm⟩
    rw [hcreate] at hfiles
    have hwas := Option.some.inj hfiles
    have hcan := hall.mp (by rw [hwas])
    rw [← hwhole hcan, hwas]
    exact ⟨hcan, hperm⟩
  · rintro ⟨hcan, hperm⟩
    rw [← hwhole hcan] at hperm
    refine ⟨written.files, ?_, hperm⟩
    rw [hcreate, ← hall.mpr hcan]

/-- **One file for each interface.**  The script ends with exactly that written
when there is nothing to write; or when the lines it counts are as many as the
interfaces, each configured name is one the shell can hold, and each file can be
written. -/
theorem wg_files_iff (canWrite : String → Bool) (D : Display) (c : Config) :
    (∃ files, createWgConfigs canWrite D c = some ⟨files, true⟩ ∧
        (files.map (·.path)).Perm (wanted c)) ↔
      c.wg = [] ∨
        c.wg.length =
            1 + ((sectionStrings c "wg").map fun s => behindNewline countWord s.toList).sum ∧
          ∀ (i : Nat) (w : WireGuardInterface), c.wg[i]? = some w →
            Holds w.name ∧ canWrite (confPath (effectiveName i w)) := by
  rw [createWgConfigs_iff]
  by_cases hwg : c.wg = []
  · have hzero : counted c = 0 := by rw [counted, if_pos hwg]
    refine iff_of_true ⟨?_, ?_⟩ (Or.inl hwg) <;> simp [hzero, wanted, hwg]
  have hcounted : counted c =
      1 + ((sectionStrings c "wg").map fun s => behindNewline countWord s.toList).sum := by
    rw [counted, if_neg hwg]
  rw [← hcounted, or_iff_right hwg]
  constructor
  · rintro ⟨hcan, hperm⟩
    have hlength : c.wg.length = counted c := by
      simpa [wanted] using hperm.length_eq.symm
    refine ⟨hlength, ?_⟩
    intro i w hw
    have hholds : Holds w.name := by
      intro s hs
      -- a file that should be there is there
      have hmem : confPath s ∈ wanted c := by
        refine List.mem_mapIdx.mpr ⟨i, (List.getElem?_eq_some_iff.mp hw).1, ?_⟩
        rw [(List.getElem?_eq_some_iff.mp hw).2, effectiveName, hs]
        rfl
      obtain ⟨j, _, hj⟩ := List.mem_map.mp (hperm.mem_iff.mpr hmem)
      exact holds_pathOf hj
    refine ⟨hholds, ?_⟩
    rw [← pathOf_eq hw hholds]
    exact hcan i (hlength ▸ (List.getElem?_eq_some_iff.mp hw).1)
  · rintro ⟨hlength, hall⟩
    have hpath : ∀ (i : Nat) (w : WireGuardInterface), c.wg[i]? = some w →
        pathOf c i = confPath (effectiveName i w) := fun i w hw => pathOf_eq hw (hall i w hw).1
    constructor
    · intro i hi
      have hw := List.getElem?_eq_getElem (hlength ▸ hi : i < c.wg.length)
      rw [hpath i _ hw]
      exact (hall i _ hw).2
    · refine List.Perm.of_eq (List.ext_getElem? fun i => ?_)
      rw [wanted, List.getElem?_map, List.getElem?_mapIdx]
      rcases Nat.lt_or_ge i c.wg.length with hlt | hge
      · have hw := List.getElem?_eq_getElem hlt
        rw [List.getElem?_range (hlength ▸ hlt), hw, Option.map_some, Option.map_some,
          hpath i _ hw]
      · rw [List.getElem?_eq_none (by simpa [← hlength] using hge), List.getElem?_eq_none hge]
        rfl

/-- Two tunnels, with nothing set. -/
def twoTunnels : Config :=
  { Config.empty with
    wg := [⟨none, none, none, none, []⟩, ⟨none, none, none, none, []⟩] }

/-- Only one of them is written. -/
theorem second_tunnel_missing :
    ¬ ∀ (D : Display) (c : Config), (wanted c).Nodup →
      ∃ files, createWgConfigs (fun _ => true) D c = some ⟨files, true⟩ ∧
        (files.map (·.path)).Perm (wanted c) := by
  intro h
  have hperm := ((createWgConfigs_iff _ _ _).mp (h noDisplay twoTunnels (by decide))).2
  have hcounted : counted twoTunnels = 1 := by decide +kernel
  have hlength := hperm.length_eq
  rw [hcounted] at hlength
  cases hlength

end Zebrafish.System.WireGuard
