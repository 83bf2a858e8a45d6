import Mathlib.Data.List.InsertIdx
import Zebrafish.ConfigTool.Edit

/-!
# Zebrafish.ConfigTool.Commands

What the writing commands do to the tree of a document.

`setInTable_safe` and `removeInItem_safe` go through the recursion of the two
walks.  No command panics on a document without inline tables; one that
succeeds leaves such a document, which refines the command on the tree of maps
and lists (`Command.Refines`).  `commands_refine` puts this together over sequences of
commands.
-/

namespace Zebrafish.ConfigTool

open Toml Rust

/-- A command that succeeds with `P`, or bails out. -/
abbrev Safe {α : Type} (P : α → Prop) (x : Except EditError α) : Prop :=
  Ends (fun e => e ≠ .panic) P x

/-- Bailing out is safe. -/
theorem safe_bail {α : Type} {P : α → Prop} (message : String) :
    Safe P (.error (.bail message)) := by
  simp [Safe, Ends]

/-! ## set -/

section Set

variable {ok : Value → Prop}

/-- The walk of `set` updates the tree at its path, or bails out. -/
theorem setInTable_safe {v : Value} (hv : ok v) (segs : List Segment) {t : Table}
    (h : t.Good ok) :
    Safe (fun t' : Table => t'.Good ok ∧ Updates segs (some v) (tree t) (tree t'))
      (setInTable t segs v) := by
  induction segs generalizing t with
  | nil => exact safe_bail _
  | cons seg tail ih =>
      cases seg with
      | index i => cases tail <;> exact safe_bail _
      | field name =>
          cases tail with
          | nil => exact ⟨h.insert hv, Updates.insert t name (.value v)⟩
          | cons seg tail =>
              rw [setInTable]
              cases hx : t.lookup name with
              | none =>
                  simp only [Table.containsKey, hx, Option.isSome_none, Bool.false_eq_true,
                    if_false]
                  refine (ih Table.good_nil).bind ?_
                  rintro next ⟨hgood, hnext⟩
                  exact ⟨h.insert hgood, hnext.field_new (y := .table next) hx⟩
              | some x =>
                  simp only [Table.containsKey, hx, Option.isSome_some, if_true]
                  cases x with
                  | value v => exact safe_bail _
                  | arrayOfTables ts => exact safe_bail _
                  | table next =>
                      refine (ih (h.lookup hx)).bind ?_
                      rintro next' ⟨hgood, hnext⟩
                      exact ⟨h.insert hgood, hnext.field (y := .table next') hx⟩

/-- The walk goes on in the table of the section, or in a new one. -/
theorem setInSection_eq (doc : Table) (sec : String) (rest : List Segment) (v : Value) :
    setInSection doc sec rest v =
      match doc.lookup sec with
      | none => setInTable [] rest v >>= fun t' => .ok (doc.insert sec (.table t'))
      | some (.table t) => setInTable t rest v >>= fun t' => .ok (doc.insert sec (.table t'))
      | some _ => .error (.bail (sec ++ " exists but is not a table")) := by
  cases hx : doc.lookup sec with
  | none =>
      simp only [setInSection, ensureTable, Table.containsKey, hx, Option.isSome_none,
        Bool.not_false, if_true, ok_bind, Table.lookup_insert_self, unwrapped, Item.asTableMut,
        Table.insert_insert]
  | some x =>
      have hensure : ensureTable doc sec =
          if !x.isTable then .error (.bail (sec ++ " exists but is not a table")) else .ok doc := by
        simp [ensureTable, Table.containsKey, hx, unwrapped, ok_bind]
      rw [setInSection, hensure]
      cases x with
      | table t =>
          simp only [Item.isTable, Bool.not_true, Bool.false_eq_true, if_false, ok_bind, hx,
            unwrapped, Item.asTableMut]
      | value v => rfl
      | arrayOfTables ts => rfl

/-- So does `set` on a section that is a table. -/
theorem setInSection_safe {doc : Table} (h : doc.Good ok) {v : Value} (hv : ok v)
    (sec : String) (rest : List Segment) :
    Safe (fun doc' : Table => doc'.Good ok ∧
      Updates (.field sec :: rest) (some v) (tree doc) (tree doc'))
      (setInSection doc sec rest v) := by
  rw [setInSection_eq]
  cases hx : doc.lookup sec with
  | none =>
      refine (setInTable_safe hv rest Table.good_nil).bind ?_
      rintro t' ⟨ht', hup⟩
      exact ⟨h.insert ht', hup.field_new (y := .table t') hx⟩
  | some x =>
      cases x with
      | table t =>
          refine (setInTable_safe hv rest (h.lookup hx)).bind ?_
          rintro t' ⟨ht', hup⟩
          exact ⟨h.insert ht', hup.field (y := .table t') hx⟩
      | value v => exact safe_bail _
      | arrayOfTables ts => exact safe_bail _

/-- The walk goes on in the table of the array, if there is one; a new array is
empty, so that no index is in it. -/
theorem setInElement_eq (doc : Table) (sec : String) (i : Nat) (rest : List Segment) (v : Value) :
    setInElement doc sec i rest v =
      match doc.lookup sec with
      | none => .error (.bail ("index " ++ toString i ++ " out of range for [" ++ sec ++
          "] (length " ++ toString 0 ++ ")"))
      | some (.arrayOfTables ts) =>
          match ts[i]? with
          | some t =>
              setInTable t rest v >>= fun t' =>
                .ok (doc.insert sec (.arrayOfTables (ts.set i t')))
          | none => .error (.bail ("index " ++ toString i ++ " out of range for [" ++ sec ++
              "] (length " ++ toString ts.length ++ ")"))
      | some _ => .error (.bail (sec ++ " exists but is not an array of tables")) := by
  cases hx : doc.lookup sec with
  | none =>
      simp [setInElement, ensureArrayOfTables, Table.containsKey, hx, ok_bind,
        Table.lookup_insert_self, unwrapped, Item.asArrayOfTablesMut]
  | some x =>
      have hensure : ensureArrayOfTables doc sec =
          if !x.isArrayOfTables then
            .error (.bail (sec ++ " exists but is not an array of tables"))
          else .ok doc := by
        simp [ensureArrayOfTables, Table.containsKey, hx, unwrapped, ok_bind]
      rw [setInElement, hensure]
      cases x with
      | value v => rfl
      | table t => rfl
      | arrayOfTables ts =>
          simp only [Item.isArrayOfTables, Bool.not_true, Bool.false_eq_true, if_false, ok_bind,
            hx, unwrapped, Item.asArrayOfTablesMut]
          cases hi : ts[i]? with
          | some t =>
              have hlt := (List.getElem?_eq_some_iff.mp hi).1
              rw [if_neg (Nat.not_le.mpr hlt)]
              rfl
          | none => rw [if_pos (List.getElem?_eq_none_iff.mp hi)]

/-- A table of a good array may be replaced by a good one. -/
theorem good_set {ts : List Table} {t : Table} (h : (Item.arrayOfTables ts).Good ok)
    (ht : t.Good ok) (i : Nat) : (Item.arrayOfTables (ts.set i t)).Good ok := by
  rw [Item.Good, goodTables_iff] at h ⊢
  refine ⟨by simpa using h.1, ?_⟩
  intro t' ht'
  rcases List.mem_or_eq_of_mem_set ht' with ht' | rfl
  · exact h.2 t' ht'
  · exact ht

/-- And `set` on a section that is an array of tables. -/
theorem setInElement_safe {doc : Table} (h : doc.Good ok) {v : Value} (hv : ok v)
    (sec : String) (i : Nat) (rest : List Segment) :
    Safe (fun doc' : Table => doc'.Good ok ∧
      Updates (.field sec :: .index i :: rest) (some v) (tree doc) (tree doc'))
      (setInElement doc sec i rest v) := by
  rw [setInElement_eq]
  cases hx : doc.lookup sec with
  | none => exact safe_bail _
  | some x =>
      cases x with
      | value v => exact safe_bail _
      | table t => exact safe_bail _
      | arrayOfTables ts =>
          have hts := h.lookup hx
          simp only
          cases hi : ts[i]? with
          | none => exact safe_bail _
          | some t =>
              have hgood := (goodTables_iff ts).mp hts.2 t (List.mem_of_getElem? hi)
              refine (setInTable_safe hv rest hgood).bind ?_
              rintro t' ⟨ht', hup⟩
              exact ⟨h.insert (good_set hts ht' i), Updates.field hx (hup.index hi)⟩

/-- `set` updates the tree at the path of its key, or bails out. -/
theorem applySet_safe {doc : Table} (h : doc.Good ok) (segs : List Segment) (raw : String)
    (hv : ok (parseValue raw)) :
    Safe (fun doc' : Table => doc'.Good ok ∧
      Updates segs (some (parseValue raw)) (tree doc) (tree doc')) (applySet doc segs raw) := by
  cases segs with
  | nil => exact safe_bail _
  | cons seg tail =>
      cases seg with
      | index i => exact safe_bail _
      | field sec =>
          cases tail with
          | nil => exact setInSection_safe h hv sec []
          | cons seg tail =>
              cases seg with
              | field k => exact setInSection_safe h hv sec (.field k :: tail)
              | index i => exact setInElement_safe h hv sec i tail

/-! ## add -/

/-- `add` puts an empty table behind those of the section, or bails out. -/
theorem addEntry_safe (doc : Table) (sec : String) :
    Safe (fun doc' : Table => sec ≠ "machine" ∧ ∃ ts : List Table,
      (doc.lookup sec = some (.arrayOfTables ts) ∨ doc.lookup sec = none ∧ ts = []) ∧
        doc' = doc.insert sec (.arrayOfTables (ts ++ [[]]))) (addEntry doc sec) := by
  unfold addEntry
  split
  · exact safe_bail _
  · next hsec =>
      cases hx : doc.lookup sec with
      | none => exact ⟨hsec, [], Or.inr ⟨rfl, rfl⟩, rfl⟩
      | some x =>
          cases x with
          | value v => exact safe_bail _
          | table t => exact safe_bail _
          | arrayOfTables ts => exact ⟨hsec, ts, Or.inl rfl, rfl⟩

/-- The list under a name, empty where there is none. -/
def ListAt (sec : String) (items : List Value) (v : Value) : Prop :=
  walkSegments [.field sec] v = some (.array items) ∨
    walkSegments [.field sec] v = none ∧ items = []

/-- There is one list under a name. -/
theorem ListAt.unique {sec : String} {items items' : List Value} {v : Value}
    (h : ListAt sec items v) (h' : ListAt sec items' v) : items = items' := by
  unfold ListAt at h h'
  grind

/-- A good array of tables stays good with one more table. -/
theorem good_grown {doc : Table} (h : doc.Good ok) {sec : String} {ts : List Table}
    (hts : doc.lookup sec = some (.arrayOfTables ts) ∨ doc.lookup sec = none ∧ ts = []) :
    (Item.arrayOfTables (ts ++ [[]])).Good ok := by
  have hall : ∀ t ∈ ts, Table.Good ok t := by
    rcases hts with hx | ⟨_, rfl⟩
    · exact (goodTables_iff ts).mp (h.lookup hx).2
    · simp
  rw [Item.Good, goodTables_iff]
  refine ⟨by simp, ?_⟩
  intro t ht
  rcases List.mem_append.mp ht with ht | ht
  · exact hall t ht
  · rw [List.mem_singleton.mp ht]
    exact Table.good_nil

/-- On the tree, `add` puts an empty table behind the list. -/
theorem updates_grown {doc : Table} {sec : String} {ts : List Table}
    (hts : doc.lookup sec = some (.arrayOfTables ts) ∨ doc.lookup sec = none ∧ ts = []) :
    ListAt sec (ts.map tree) (tree doc) ∧
      Updates [.field sec] (some (.array (ts.map tree ++ [.table []]))) (tree doc)
        (tree (doc.insert sec (.arrayOfTables (ts ++ [[]])))) := by
  constructor
  · unfold ListAt
    rw [walk_tree_field]
    rcases hts with hx | ⟨hx, rfl⟩
    · refine Or.inl ?_
      rw [hx, ← tablesToValue_eq]
      rfl
    · exact Or.inr ⟨by rw [hx]; rfl, rfl⟩
  · have hup := Updates.insert doc sec (.arrayOfTables (ts ++ [[]]))
    rwa [Item.toValue, tablesToValue_eq, List.map_append] at hup

end Set

/-! ## remove -/

/-- No inline table, and none in an array. -/
def Standard : Value → Prop
  | .table _ => False
  | .array items => ∀ x ∈ items, x.isTable = false
  | _ => True

/-- A value given on the command line is no table. -/
theorem standard_parseValue (raw : String) : Standard (parseValue raw) := by
  unfold parseValue
  split
  · trivial
  · split
    · trivial
    · split <;> trivial


/-- A list without one of its elements; a list of tables that got empty is not
read back. -/
def shifted (items : List Value) (i : Nat) : Option Value :=
  match items with
  | [.table _] => none
  | _ => some (.array (items.eraseIdx i))

/-- What is deleted from a tree is exactly what is at the path. -/
inductive Removes (p : List Segment) (v v' : Value) : Prop
  | absent (h : walkSegments p v = none) (same : v' = v)
  | entry (home : List Segment) {k : String} (hp : p = home ++ [.field k])
      (present : walkSegments p v ≠ none) (gone : Updates p none v v')
  | element (home : List Segment) {i : Nat} {items : List Value} (hp : p = home ++ [.index i])
      (hitems : walkSegments home v = some (.array items)) (hi : i < items.length)
      (gone : Updates home (shifted items i) v v')

/-- What is deleted from an item is deleted from its table. -/
theorem Removes.field {t : Table} (h : (t.map Prod.fst).Nodup) {k : String} {x y : Item}
    (hx : t.lookup k = some x) {p : List Segment} (hr : Removes p x.toValue y.toValue) :
    Removes (.field k :: p) (tree t) (tree (t.insert k y)) := by
  have hwalk : ∀ q, walkSegments (.field k :: q) (tree t) = walkSegments q x.toValue := by
    intro q
    rw [walk_tree_field, hx]
    rfl
  cases hr with
  | absent hnone hsame =>
      exact .absent (by rw [hwalk, hnone]) (tree_insert_same h hx hsame)
  | entry home hp hpresent hgone =>
      refine .entry (.field k :: home) (by rw [hp, List.cons_append]) ?_ (hgone.field hx)
      rwa [hwalk]
  | element home hp hitems hi hgone =>
      refine .element (.field k :: home) (by rw [hp, List.cons_append]) ?_ hi
        (hgone.field hx)
      rwa [hwalk]

/-- What the walk of `remove` makes of an item: all of a list of one table, or
something that is still there. -/
def Removed (segs : List Segment) (x x' : Item) : Prop :=
  (segs = [.index 0] ∧ x'.vanishes ∧ ∃ t, x = .arrayOfTables [t]) ∨
    (x'.vanishes = false ∧ x'.reload.Good Standard ∧ Removes segs x.toValue x'.reload.toValue)

/-- The removal of an entry of a good table, as it is read back. -/
theorem Removed.field {t : Table} (h : t.Good Standard) {k : String} {x x' : Item}
    (hx : t.lookup k = some x) {segs : List Segment} (hr : Removed segs x x') :
    Table.Good Standard (reloadEntries (t.insert k x')) ∧
      Removes (.field k :: segs) (tree t) (tree (reloadEntries (t.insert k x'))) := by
  rcases hr with ⟨rfl, hvanishes, t₀, rfl⟩ | ⟨hkept, hgood, hr⟩
  · have hsome : (t.lookup k).isSome := by rw [hx]; rfl
    rw [h.reload_vanished hsome hvanishes]
    have hitems : walkSegments [.field k] (tree t) = some (.array [tree t₀]) := by
      rw [walk_tree_field, hx]
      rfl
    exact ⟨h.remove k, .element [.field k] rfl hitems (by simp) (Updates.remove t k)⟩
  · rw [h.reload_insert k hkept]
    exact ⟨h.insert hgood, hr.field ((Table.good_iff t).mp h).1 hx⟩

/-- Where nothing is at the path, the item stays as it is. -/
theorem Removed.unchanged {segs : List Segment} {x : Item} (h : x.Good Standard)
    (habsent : walkSegments segs x.toValue = none) : Removed segs x x := by
  refine Or.inr ⟨h.not_vanishes, ?_, .absent habsent ?_⟩ <;> rw [h.reload_eq]
  exact h

/-- An entry removed from a table. -/
theorem Removed.table_field {t : Table} (h : t.Good Standard) (name : String) :
    Removed [.field name] (.table t) (.table (t.remove name)) := by
  have hgood : (Item.table (t.remove name)).Good Standard := h.remove name
  refine Or.inr ⟨rfl, ?_, ?_⟩ <;> rw [hgood.reload_eq]
  · exact hgood
  · cases hx : t.lookup name with
    | none =>
        refine .absent ?_ (by rw [Table.remove_of_absent hx])
        exact (walk_tree_field t name []).trans (by rw [hx]; rfl)
    | some x =>
        refine .entry [] rfl ?_ (Updates.remove t name)
        have hwalk : walkSegments [.field name] (tree t) = some x.toValue := by
          rw [walk_tree_field, hx]
          rfl
        rw [Item.toValue, ← tree, hwalk]
        exact Option.some_ne_none _

/-- A table removed from an array of tables. -/
theorem Removed.tables_index {ts : List Table} (h : (Item.arrayOfTables ts).Good Standard) {i : Nat}
    (hi : i < ts.length) :
    Removed [.index i] (.arrayOfTables ts) (.arrayOfTables (ts.eraseIdx i)) := by
  match ts, h, hi with
  | [t], _, hi =>
      have hzero : i = 0 := by simpa using hi
      subst hzero
      exact Or.inl ⟨rfl, rfl, t, rfl⟩
  | t :: t' :: ts, h, hi =>
      have hgood : (Item.arrayOfTables ((t :: t' :: ts).eraseIdx i)).Good Standard := by
        rw [Item.Good, goodTables_iff] at h ⊢
        refine ⟨?_, fun t ht => h.2 t (List.mem_of_mem_eraseIdx ht)⟩
        cases i <;> simp
      refine Or.inr ⟨hgood.not_vanishes, ?_, ?_⟩ <;> rw [hgood.reload_eq]
      · exact hgood
      · have hitems : walkSegments [] (Item.arrayOfTables (t :: t' :: ts)).toValue =
            some (.array ((t :: t' :: ts).map tree)) := by
          rw [Item.toValue, tablesToValue_eq]
          rfl
        refine .element [] rfl hitems (by simpa using hi) ?_
        rw [Item.toValue, Item.toValue, tablesToValue_eq, tablesToValue_eq, ← List.eraseIdx_map]
        exact Updates.whole _ _

/-- An element removed from an array. -/
theorem Removed.array_index {items : List Value} (h : (Item.value (.array items)).Good Standard)
    {i : Nat} (hi : i < items.length) :
    Removed [.index i] (.value (.array items)) (.value (.array (items.eraseIdx i))) := by
  have hgood : (Item.value (.array (items.eraseIdx i))).Good Standard := by
    intro x hx
    exact h x (List.mem_of_mem_eraseIdx hx)
  refine Or.inr ⟨rfl, hgood, .element [] rfl rfl hi ?_⟩
  have hshifted : shifted items i = some (.array (items.eraseIdx i)) := by
    unfold shifted
    split
    · next entries => cases h (.table entries) (List.mem_singleton_self _)
    · rfl
  rw [hshifted]
  exact Updates.whole _ _

/-- The walk of `remove` deletes what is at its path, or bails out. -/
theorem removeInItem_safe (segs : List Segment) {x : Item} (h : x.Good Standard) :
    Safe (Removed segs x) (removeInItem x segs) := by
  induction segs generalizing x with
  | nil => exact safe_bail _
  | cons seg tail ih =>
      cases tail with
      | nil =>
          cases seg with
          | field name =>
              cases x with
              | table t => exact Removed.table_field h name
              | arrayOfTables ts => exact Removed.unchanged h rfl
              | value v =>
                  refine Removed.unchanged h ?_
                  cases v <;> first | rfl | exact absurd h id
          | index i =>
              rw [removeInItem]
              cases x with
              | table t => exact Removed.unchanged h rfl
              | arrayOfTables ts =>
                  simp only [Item.asArrayOfTablesMut]
                  split
                  · next hi =>
                      rw [removeAt, if_pos hi]
                      exact Removed.tables_index h hi
                  · next hi =>
                      refine Removed.unchanged h ?_
                      rw [walk_tables, List.getElem?_eq_none (Nat.le_of_not_lt hi)]
                      rfl
              | value v =>
                  cases v with
                  | array items =>
                      simp only [Item.asArrayOfTablesMut, Item.asArrayMut]
                      split
                      · next hi =>
                          rw [removeAt, if_pos hi]
                          exact Removed.array_index h hi
                      · next hi =>
                          refine Removed.unchanged h ?_
                          simp [Item.toValue, walkSegments,
                            List.getElem?_eq_none (Nat.le_of_not_lt hi)]
                  | table entries => exact absurd h id
                  | _ => exact Removed.unchanged h rfl
      | cons seg' tail =>
          cases seg with
          | index i => exact safe_bail _
          | field name =>
              cases x with
              | arrayOfTables ts => exact Removed.unchanged h rfl
              | value v =>
                  refine Removed.unchanged h ?_
                  cases v <;> first | rfl | exact absurd h id
              | table t =>
                  rw [removeInItem]
                  cases hx : t.lookup name with
                  | none =>
                      refine Removed.unchanged h ?_
                      exact (walk_tree_field t name _).trans (by rw [hx]; rfl)
                  | some x =>
                      refine (ih (Table.Good.lookup h hx)).bind ?_
                      intro x' hr
                      obtain ⟨hgood, hremoves⟩ := hr.field h hx
                      exact Or.inr ⟨rfl, hgood, hremoves⟩

/-- A document is walked like any table. -/
theorem removeInDoc_eq (doc : Table) (sec : String) (tail : List Segment) :
    (removeInDoc doc (.field sec :: tail)).map Item.table =
      removeInItem (.table doc) (.field sec :: tail) := by
  cases tail with
  | nil => rfl
  | cons seg tail =>
      rw [removeInDoc, removeInItem]
      · cases doc.lookup sec with
        | none => rfl
        | some x =>
            simp only
            cases removeInItem x (seg :: tail) <;> rfl
      · simp

/-- So does `remove` on a document, as it is read back. -/
theorem removeInDoc_safe {doc : Table} (h : doc.Good Standard) (segs : List Segment) :
    Safe (fun doc' : Table => Table.Good Standard (reloadEntries doc') ∧
      Removes segs (tree doc) (tree (reloadEntries doc'))) (removeInDoc doc segs) := by
  cases segs with
  | nil => exact safe_bail _
  | cons seg tail =>
      cases seg with
      | index i => exact safe_bail _
      | field sec =>
          have hsafe := removeInItem_safe (.field sec :: tail) (x := .table doc) h
          rw [← removeInDoc_eq] at hsafe
          cases hdoc : removeInDoc doc (.field sec :: tail) with
          | error e =>
              rw [hdoc] at hsafe
              exact hsafe
          | ok doc' =>
              rw [hdoc] at hsafe
              rcases hsafe with ⟨heq, _⟩ | ⟨_, hgood, hremoves⟩
              · cases heq
              · exact ⟨hgood, hremoves⟩

/-! ## commands -/

/-- What a command that succeeds does to the tree of maps and lists. -/
def Command.Refines : Command → Value → Value → Prop
  | .set key value, v, v' =>
      ∃ path, KeyPath.parse key = some path ∧
        Updates path.segments (some (parseValue value)) v v'
  | .add sec, v, v' =>
      ∃ items, ListAt sec items v ∧
        Updates [.field sec] (some (.array (items ++ [.table []]))) v v'
  | .remove key, v, v' => ∃ path, KeyPath.parse key = some path ∧ Removes path.segments v v'

/-- A path that may be written is the one of the key. -/
theorem writablePath_safe (file : Bool) (key refusal : String) :
    Safe (fun path => KeyPath.parse key = some path) (writablePath file key refusal) := by
  unfold writablePath
  split
  · exact safe_bail _
  · next path hpath =>
      split
      · exact safe_bail _
      · split
        · exact safe_bail _
        · exact hpath

theorem writablePath_ok {file : Bool} {key refusal : String} {path : KeyPath}
    (h : writablePath file key refusal = .ok path) : KeyPath.parse key = some path := by
  have hsafe := writablePath_safe file key refusal
  rw [h] at hsafe
  exact hsafe

theorem writablePath_eq {file : Bool} {key refusal : String} {path : KeyPath} {sec : String}
    (hparse : KeyPath.parse key = some path) (hsection : path.section? = some sec)
    (hsec : sec ≠ "machine") : writablePath file key refusal = .ok path := by
  simp [writablePath, hparse, hsection, hsec]

/-- A command that succeeds refines the command on the tree. -/
theorem Command.apply_safe {doc : Table} (h : doc.Good Standard) (file : Bool) (cmd : Command) :
    Safe (fun doc' : Table => Table.Good Standard (reloadEntries doc') ∧
      cmd.Refines (tree doc) (tree (reloadEntries doc'))) (cmd.apply file doc) := by
  cases cmd with
  | set key value =>
      refine (writablePath_safe file key _).bind ?_
      intro path hpath
      refine (applySet_safe h path.segments value (standard_parseValue value)).imp ?_
      rintro doc' ⟨hgood, hup⟩
      rw [hgood.reload_eq]
      exact ⟨hgood, path, hpath, hup⟩
  | add sec =>
      refine (addEntry_safe doc sec).imp ?_
      rintro doc' ⟨_, ts, hts, rfl⟩
      have hgood : (doc.insert sec (.arrayOfTables (ts ++ [[]]))).Good Standard :=
        h.insert (good_grown h hts)
      rw [hgood.reload_eq]
      exact ⟨hgood, ts.map tree, updates_grown hts⟩
  | remove key =>
      refine (writablePath_safe file key _).bind ?_
      intro path hpath
      refine (removeInDoc_safe h path.segments).imp ?_
      rintro doc' ⟨hgood, hremoves⟩
      exact ⟨hgood, path, hpath, hremoves⟩

/-- A step: no panic, and a good document again. -/
theorem Command.run_good {doc : Table} (h : doc.Good Standard) (file : Bool) (cmd : Command) :
    ∃ doc' : Table, cmd.run file doc = .ok doc' ∧ doc'.Good Standard := by
  have hsafe := cmd.apply_safe h file
  unfold Command.run
  cases hcmd : cmd.apply file doc with
  | ok doc' =>
      rw [hcmd] at hsafe
      exact ⟨reloadEntries doc', rfl, hsafe.1⟩
  | error e =>
      rw [hcmd] at hsafe
      cases e with
      | bail message => exact ⟨doc, rfl, h⟩
      | panic => exact absurd rfl hsafe

/-- Every document on the way is a good one. -/
theorem runAll_good {doc : Table} (h : doc.Good Standard) (cmds : List (Bool × Command)) :
    ∃ doc' : Table, runAll doc cmds = .ok doc' ∧ doc'.Good Standard := by
  induction cmds generalizing doc with
  | nil => exact ⟨doc, rfl, h⟩
  | cons c cmds ih =>
      obtain ⟨file, cmd⟩ := c
      obtain ⟨doc', hrun, hgood⟩ := cmd.run_good h file
      obtain ⟨d, hall, hd⟩ := ih hgood
      refine ⟨d, ?_, hd⟩
      rw [runAll, hrun, ok_bind, hall]

/-- The entry that was added can be set. -/
theorem set_after_add {doc doc' : Table} (h : doc.Good Standard) {file : Bool} {sec : String}
    (hadd : Command.apply file doc (.add sec) = .ok doc') {items : List Value}
    (hitems : ListAt sec items (tree doc)) (hlen : items.length < 2 ^ 64) {name : String}
    (hsec : IsName sec) (hname : IsName name) (file' : Bool) (raw : String) :
    ∃ doc'', Command.apply file' (reloadEntries doc')
      (.set (elementKey sec items.length name) raw) = .ok doc'' := by
  have hsafe := addEntry_safe doc sec
  rw [show addEntry doc sec = .ok doc' from hadd] at hsafe
  obtain ⟨hmachine, ts, hts, rfl⟩ := hsafe
  have hgood : (doc.insert sec (.arrayOfTables (ts ++ [[]]))).Good Standard :=
    h.insert (good_grown h hts)
  have hlength : items.length = ts.length := by
    rw [hitems.unique (updates_grown hts).1, List.length_map]
  obtain ⟨path, hparse, hpath⟩ := Option.map_eq_some_iff.mp (parse_elementKey hsec hname hlen)
  have hsection : path.section? = some sec := by simp [KeyPath.section?, hpath]
  have hlast : (ts ++ [[]])[items.length]? = some [] := by simp [hlength]
  rw [hgood.reload_eq, Command.apply, writablePath_eq hparse hsection hmachine, ok_bind, hpath,
    applySet, setInElement_eq, Table.lookup_insert_self]
  simp only [hlast]
  exact ⟨_, rfl⟩

/-- Over every sequence of commands on a document without inline tables, no step
panics, and a step that succeeds refines the command on the tree of maps and
lists; an entry that was added can be set. -/
theorem commands_refine {doc : Table} (h : doc.Good Standard) (cmds : List (Bool × Command)) :
    ∃ d : Table, runAll doc cmds = .ok d ∧
      ∀ (file : Bool) (cmd : Command), cmd.apply file d ≠ .error .panic ∧
        ∀ d' : Table, cmd.apply file d = .ok d' →
          cmd.Refines (tree d) (tree (reloadEntries d')) ∧
          ∀ sec items name raw file', cmd = .add sec → ListAt sec items (tree d) →
            items.length < 2 ^ 64 → IsName sec → IsName name →
            ∃ d'', Command.apply file' (reloadEntries d')
              (.set (elementKey sec items.length name) raw) = .ok d'' := by
  obtain ⟨d, hrun, hgood⟩ := runAll_good h cmds
  refine ⟨d, hrun, ?_⟩
  intro file cmd
  have hsafe := cmd.apply_safe hgood file
  constructor
  · intro hpanic
    rw [hpanic] at hsafe
    exact hsafe rfl
  · intro d' hd'
    rw [hd'] at hsafe
    refine ⟨hsafe.2, ?_⟩
    rintro sec items name raw file' rfl hitems hlen hsec hname
    exact set_after_add hgood hd' hitems hlen hsec hname file' raw

/-- A host with one interface. -/
def interfaceDoc : Table :=
  [("hostname", .table [("name", .value (.string "web1"))]),
    ("wg", .arrayOfTables [[("name", .value (.string "wg0"))]])]

theorem commands_refine_interface :
    interfaceDoc.Good Standard ∧
      ∃ d : Table, runAll interfaceDoc [(true, .add "wg"), (false, .set "wg[1].name" "wg1"),
          (true, .remove "wg[0]")] = .ok d ∧
        ∀ (file : Bool) (cmd : Command), cmd.apply file d ≠ .error .panic ∧
          ∀ d' : Table, cmd.apply file d = .ok d' →
            cmd.Refines (tree d) (tree (reloadEntries d')) ∧
            ∀ sec items name raw file', cmd = .add sec → ListAt sec items (tree d) →
              items.length < 2 ^ 64 → IsName sec → IsName name →
              ∃ d'', Command.apply file' (reloadEntries d')
                (.set (elementKey sec items.length name) raw) = .ok d'' := by
  have hgood : interfaceDoc.Good Standard := by
    simp [Table.Good, interfaceDoc, Item.Good, GoodEntries, GoodTables, Standard]
  exact ⟨hgood, commands_refine hgood _⟩

end Zebrafish.ConfigTool
