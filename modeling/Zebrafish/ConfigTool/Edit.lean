import Zebrafish.Lib.Rust
import Zebrafish.ConfigTool.Document

/-!
# Zebrafish.ConfigTool.Edit

Changes of a document, in terms of what is read at each path.

`Good` documents are what is read from a file: they have each key once and no
empty arrays of tables, and their values may be restricted.  `Updates` says what
is read where after a change at one path; it is carried into an entry of a table
and into a table of an array, as the walks of the commands go.
-/

namespace Zebrafish.ConfigTool

open Toml Rust

/-! ## tables -/

namespace Table

variable {t : Table} {k k' : String} {x : Item}

/-- Replacing the item of a key, as it is looked up. -/
theorem lookup_map_replace (t : Table) (k k' : String) (x : Item) :
    (t.map fun e => if e.1 = k then (k, x) else e).lookup k' =
      if k' = k then (t.lookup k).map fun _ => x else t.lookup k' := by
  induction t with
  | nil => simp
  | cons e t ih =>
      obtain ⟨c, y⟩ := e
      by_cases hc : c = k <;> by_cases hk : k' = k <;> grind

/-- An item that was put in is found. -/
@[simp] theorem lookup_insert_self (t : Table) (k : String) (x : Item) :
    (t.insert k x).lookup k = some x := by
  unfold insert
  split
  · next h =>
      rw [lookup_map_replace, if_pos rfl]
      obtain ⟨y, hy⟩ := Option.isSome_iff_exists.mp h
      simp [hy]
  · next h =>
      have hnone := Option.not_isSome_iff_eq_none.mp h
      rw [List.lookup_append, hnone]
      simp

/-- Under other keys there is what was there. -/
theorem lookup_insert_of_ne (t : Table) (x : Item) (h : k' ≠ k) :
    (t.insert k x).lookup k' = t.lookup k' := by
  unfold insert
  split
  · rw [lookup_map_replace, if_neg h]
  · rw [List.lookup_append]
    cases t.lookup k' <;> simp [h]

/-- An item that was removed is not found. -/
@[simp] theorem lookup_remove_self (t : Table) (k : String) : (t.remove k).lookup k = none := by
  rw [List.lookup_eq_none_iff]
  intro e he
  have hne := (List.mem_filter.mp he).2
  simp only [ne_eq, decide_not, Bool.not_eq_true', decide_eq_false_iff_not] at hne
  simpa using fun h => hne h.symm

/-- Under other keys there is what was there. -/
theorem lookup_remove_of_ne (t : Table) (h : k' ≠ k) : (t.remove k).lookup k' = t.lookup k' := by
  induction t with
  | nil => rfl
  | cons e t ih =>
      obtain ⟨c, y⟩ := e
      unfold remove at ih ⊢
      by_cases hc : c = k <;> grind

/-- There is the new entry, and nothing else that was not there. -/
theorem mem_insert {e : String × Item} (h : e ∈ t.insert k x) : e = (k, x) ∨ e ∈ t := by
  unfold insert at h
  split at h
  · obtain ⟨e', he', heq⟩ := List.mem_map.mp h
    split at heq
    · exact Or.inl heq.symm
    · exact Or.inr (heq ▸ he')
  · rcases List.mem_append.mp h with h | h
    · exact Or.inr h
    · exact Or.inl (List.mem_singleton.mp h)

/-- A key is new at the end, or stays where it is. -/
theorem keys_insert (t : Table) (k : String) (x : Item) :
    (t.insert k x).map Prod.fst =
      if (t.lookup k).isSome then t.map Prod.fst else t.map Prod.fst ++ [k] := by
  unfold insert
  split
  · rw [List.map_map]
    refine List.map_congr_left ?_
    intro e _
    simp only [Function.comp]
    split
    · next h => exact h.symm
    · rfl
  · simp

/-- No key gets there twice. -/
theorem nodup_insert (h : (t.map Prod.fst).Nodup) (k : String) (x : Item) :
    ((t.insert k x).map Prod.fst).Nodup := by
  rw [keys_insert]
  split
  · exact h
  · next hk =>
      rw [List.nodup_append]
      refine ⟨h, by simp, ?_⟩
      rintro a ha b hb rfl
      rw [List.mem_singleton] at hb
      subst hb
      obtain ⟨⟨_, y⟩, hy, rfl⟩ := List.mem_map.mp ha
      have hsome := Assoc.lookup_of_mem h hy
      simp [hsome] at hk

theorem not_key_of_absent (h : t.lookup k = none) : ∀ e ∈ t, e.1 ≠ k := by
  rintro e he rfl
  exact Assoc.lookup_eq_none_iff.mp h (List.mem_map_of_mem he)

/-- Removing what is not there changes nothing. -/
theorem remove_of_absent (h : t.lookup k = none) : t.remove k = t := by
  rw [remove, List.filter_eq_self]
  intro e he
  simpa using not_key_of_absent h e he

/-- The last of two insertions counts. -/
theorem insert_insert (t : Table) (k : String) (x y : Item) :
    (t.insert k x).insert k y = t.insert k y := by
  have hsome : ((t.insert k x).lookup k).isSome := by rw [lookup_insert_self]; rfl
  rw [insert, if_pos hsome]
  unfold insert
  split
  · rw [List.map_map]
    refine List.map_congr_left ?_
    intro e _
    by_cases he : e.1 = k <;> simp [he]
  · next h =>
      have habsent := not_key_of_absent (Option.not_isSome_iff_eq_none.mp h)
      have hrest : (t.map fun e => if e.1 = k then (k, y) else e) = t := by
        refine List.map_congr_left (g := id) ?_ |>.trans (List.map_id t)
        exact fun e he => if_neg (habsent e he)
      rw [List.map_append, hrest]
      simp

end Table

/-! ## items -/

/-- Induction over the tree of an item. -/
@[elab_as_elim]
theorem Item.members_induction {P : Item → Prop} (value : ∀ v, P (.value v))
    (table : ∀ t : Table, (∀ e ∈ t, P e.2) → P (.table t))
    (arrayOfTables : ∀ ts : List Table, (∀ t ∈ ts, ∀ e ∈ t, P e.2) → P (.arrayOfTables ts))
    (x : Item) : P x := by
  refine @Item.rec P (fun t => ∀ e ∈ t, P e.2) (fun ts => ∀ t ∈ ts, ∀ e ∈ t, P e.2)
    (fun e => P e.2) value table arrayOfTables ?_ ?_ ?_ ?_ ?_ x
  · exact fun _ h => by cases h
  · intro head tail hhead htail
    exact List.forall_mem_cons.mpr ⟨hhead, htail⟩
  · exact fun _ h => by cases h
  · intro head tail hhead htail
    exact List.forall_mem_cons.mpr ⟨hhead, htail⟩
  · intro k x hx
    exact hx

/-- The tree of a table has the trees of its items. -/
theorem lookup_entriesToValue (t : Table) (k : String) :
    (entriesToValue t).lookup k = (t.lookup k).map Item.toValue := by
  induction t with
  | nil => rfl
  | cons e t ih =>
      obtain ⟨c, x⟩ := e
      rw [entriesToValue, List.lookup_cons, List.lookup_cons]
      cases k == c with
      | true => rfl
      | false => exact ih

/-- The tree of a table, entry by entry. -/
theorem entriesToValue_eq (t : Table) :
    entriesToValue t = t.map fun e => (e.1, e.2.toValue) := by
  induction t with
  | nil => rfl
  | cons e t ih => rw [entriesToValue, ih, List.map_cons]

/-- The tree of an array of tables, table by table. -/
theorem tablesToValue_eq (ts : List Table) : tablesToValue ts = ts.map tree := by
  induction ts with
  | nil => rfl
  | cons t ts ih => rw [tablesToValue, ih, List.map_cons, tree]

/-- An item replaced by one with the same tree. -/
theorem tree_insert_same {t : Table} (h : (t.map Prod.fst).Nodup) {k : String} {x y : Item}
    (hx : t.lookup k = some x) (hy : y.toValue = x.toValue) : tree (t.insert k y) = tree t := by
  have hsome : (t.lookup k).isSome := by rw [hx]; rfl
  rw [tree, tree, entriesToValue_eq, entriesToValue_eq, Table.insert, if_pos hsome, List.map_map]
  congr 1
  refine List.map_congr_left ?_
  rintro ⟨c, z⟩ he
  simp only [Function.comp]
  split
  · next hc =>
      subst hc
      have hz := Assoc.lookup_of_mem h he
      rw [hx] at hz
      cases hz
      rw [hy]
  · rfl

/-- Reading a table goes through its items. -/
theorem walk_tree_field (t : Table) (k : String) (q : List Segment) :
    walkSegments (.field k :: q) (tree t) =
      (t.lookup k).bind fun x => walkSegments q x.toValue := by
  rw [tree, walkSegments, lookup_entriesToValue]
  cases t.lookup k <;> rfl

/-- Reading an array of tables goes through its tables. -/
theorem walk_tables (ts : List Table) (i : Nat) (q : List Segment) :
    walkSegments (.index i :: q) (Item.arrayOfTables ts).toValue =
      (ts[i]?).bind fun t => walkSegments q (tree t) := by
  rw [Item.toValue, walkSegments, tablesToValue_eq, List.getElem?_map]
  cases ts[i]? <;> rfl

/-! ## good documents -/

mutual

/-- No empty arrays of tables, no key twice, and values of some kind. -/
def Item.Good (ok : Value → Prop) : Item → Prop
  | .value v => ok v
  | .table t => (t.map Prod.fst).Nodup ∧ GoodEntries ok t
  | .arrayOfTables ts => ts ≠ [] ∧ GoodTables ok ts

def GoodEntries (ok : Value → Prop) : List (String × Item) → Prop
  | [] => True
  | (_, x) :: t => x.Good ok ∧ GoodEntries ok t

def GoodTables (ok : Value → Prop) : List (List (String × Item)) → Prop
  | [] => True
  | t :: ts => ((t.map Prod.fst).Nodup ∧ GoodEntries ok t) ∧ GoodTables ok ts

end

/-- A good document. -/
def Table.Good (ok : Value → Prop) (t : Table) : Prop := (Item.table t).Good ok

variable {ok : Value → Prop}

/-- Good entries are good items. -/
theorem goodEntries_iff (t : Table) : GoodEntries ok t ↔ ∀ e ∈ t, e.2.Good ok := by
  induction t with
  | nil => simp [GoodEntries]
  | cons e t ih =>
      obtain ⟨k, x⟩ := e
      rw [GoodEntries, ih, List.forall_mem_cons]

/-- Good tables are good one by one. -/
theorem goodTables_iff (ts : List Table) : GoodTables ok ts ↔ ∀ t ∈ ts, Table.Good ok t := by
  induction ts with
  | nil => simp [GoodTables]
  | cons t ts ih =>
      rw [GoodTables, ih, List.forall_mem_cons]
      rfl

/-- A good table has distinct keys and good items. -/
theorem Table.good_iff (t : Table) :
    t.Good ok ↔ (t.map Prod.fst).Nodup ∧ ∀ e ∈ t, e.2.Good ok := by
  rw [Table.Good, Item.Good, goodEntries_iff]

/-- What is found in a good table is good. -/
theorem Table.Good.lookup {t : Table} (h : t.Good ok) {k : String} {x : Item}
    (hx : t.lookup k = some x) : x.Good ok :=
  ((Table.good_iff t).mp h).2 _ (Assoc.mem_of_lookup hx)

theorem Table.good_nil : Table.Good ok [] := by simp [Table.good_iff]

/-- A good item may be put into a good table. -/
theorem Table.Good.insert {t : Table} (h : t.Good ok) {k : String} {x : Item} (hx : x.Good ok) :
    (t.insert k x).Good ok := by
  rw [Table.good_iff] at h ⊢
  refine ⟨Table.nodup_insert h.1 k x, ?_⟩
  intro e he
  rcases Table.mem_insert he with rfl | he
  · exact hx
  · exact h.2 e he

/-- A good table stays good without one of its entries. -/
theorem Table.Good.remove {t : Table} (h : t.Good ok) (k : String) : (t.remove k).Good ok := by
  rw [Table.good_iff] at h ⊢
  exact ⟨(List.filter_sublist.map _).nodup h.1, fun e he => h.2 e (List.mem_filter.mp he).1⟩

/-! ## reading back -/

/-- An array of tables that a file has no place for. -/
def Item.vanishes : Item → Bool
  | .arrayOfTables [] => true
  | _ => false

def reloadEntry (e : String × Item) : Option (String × Item) :=
  if e.2.vanishes then none else some (e.1, e.2.reload)

/-- A table is read back entry by entry. -/
theorem reloadEntries_eq (t : Table) : reloadEntries t = t.filterMap reloadEntry := by
  induction t with
  | nil => rfl
  | cons e t ih =>
      obtain ⟨k, x⟩ := e
      cases hx : x.vanishes with
      | true =>
          have hempty : x = .arrayOfTables [] := by
            cases x with
            | arrayOfTables ts =>
                cases ts with
                | nil => rfl
                | cons t ts => cases hx
            | _ => cases hx
          subst hempty
          rw [reloadEntries, ih]
          rfl
      | false =>
          have hreload : reloadEntry (k, x) = some (k, x.reload) := by simp [reloadEntry, hx]
          rw [reloadEntries, ih, List.filterMap_cons_some hreload]
          rintro rfl
          cases hx

/-- An array of tables is read back table by table. -/
theorem reloadTables_eq (ts : List Table) : reloadTables ts = ts.map reloadEntries := by
  induction ts with
  | nil => rfl
  | cons t ts ih => rw [reloadTables, ih, List.map_cons]

/-- A good item has its place in a file. -/
theorem Item.Good.not_vanishes {x : Item} (h : x.Good ok) : x.vanishes = false := by
  cases x with
  | arrayOfTables ts =>
      cases ts with
      | nil => exact absurd rfl h.1
      | cons t ts => rfl
  | _ => rfl

/-- A table whose items are read back as they are is, too. -/
theorem reloadEntries_of_entries {t : Table} (hgood : ∀ e ∈ t, e.2.Good ok)
    (hreload : ∀ e ∈ t, e.2.reload = e.2) : reloadEntries t = t := by
  have hentry : ∀ e ∈ t, reloadEntry e = some (id e) := by
    intro e he
    simp [reloadEntry, (hgood e he).not_vanishes, hreload e he]
  rw [reloadEntries_eq, List.filterMap_eq_map_iff_forall_eq_some.mpr hentry, List.map_id]

/-- A good item is read back as it was written. -/
theorem Item.Good.reload_eq {x : Item} (h : x.Good ok) : x.reload = x := by
  induction x using Item.members_induction with
  | value v => rfl
  | table t ih =>
      have hgood := ((Table.good_iff t).mp h).2
      rw [Item.reload, reloadEntries_of_entries hgood fun e he => ih e he (hgood e he)]
  | arrayOfTables ts ih =>
      have htables : ∀ t ∈ ts, reloadEntries t = id t := by
        intro t ht
        have hgood := ((Table.good_iff t).mp ((goodTables_iff ts).mp h.2 t ht)).2
        exact reloadEntries_of_entries hgood fun e he => ih t ht e he (hgood e he)
      rw [Item.reload, reloadTables_eq, List.map_congr_left htables, List.map_id]

/-- The entries of a good table are read back as they are. -/
theorem Table.Good.reloadEntry_eq {t : Table} (h : t.Good ok) :
    ∀ e ∈ t, reloadEntry e = some e := by
  intro e he
  have hgood := ((Table.good_iff t).mp h).2 e he
  simp [reloadEntry, hgood.not_vanishes, hgood.reload_eq]

/-- A good document is read back as it was written. -/
theorem Table.Good.reload_eq {t : Table} (h : t.Good ok) : reloadEntries t = t := by
  have hreload := Item.Good.reload_eq h
  rw [Item.reload] at hreload
  exact Item.table.inj hreload

/-- A good table with one item of it changed. -/
theorem Table.Good.reload_insert {t : Table} (h : t.Good ok) (k : String) {x : Item}
    (hx : x.vanishes = false) : reloadEntries (t.insert k x) = t.insert k x.reload := by
  have hself : reloadEntry (k, x) = some (k, x.reload) := by simp [reloadEntry, hx]
  rw [reloadEntries_eq]
  unfold Table.insert
  split
  · rw [List.filterMap_map]
    refine List.filterMap_eq_map_iff_forall_eq_some.mpr ?_
    intro e he
    simp only [Function.comp]
    split
    · exact hself
    · exact h.reloadEntry_eq e he
  · have hrest : t.filterMap reloadEntry = t := by rw [← reloadEntries_eq, h.reload_eq]
    rw [List.filterMap_append, hrest, List.filterMap_cons_some hself, List.filterMap_nil]

/-- A good table with one item of it gone. -/
theorem Table.Good.reload_vanished {t : Table} (h : t.Good ok) {k : String}
    (hk : (t.lookup k).isSome) {x : Item} (hx : x.vanishes) :
    reloadEntries (t.insert k x) = t.remove k := by
  have hself : reloadEntry (k, x) = none := by simp [reloadEntry, hx]
  rw [reloadEntries_eq, Table.insert, if_pos hk, List.filterMap_map, Table.remove,
    ← List.filterMap_eq_filter]
  refine List.filterMap_congr ?_
  intro e he
  by_cases hc : e.1 = k
  · simp [hc, hself, Option.guard]
  · simp [hc, h.reloadEntry_eq e he, Option.guard]

/-! ## updates of a tree

`Updates p w v v'` is what a command may do to a tree: `w` is read at `p`
afterwards, the tables and lists on the way to it are still there, and every
path that leads elsewhere reads as before. -/

/-- Neither path is a part of the other. -/
def Apart (p q : List Segment) : Prop := ¬ p <+: q ∧ ¬ q <+: p

structure Updates (p : List Segment) (w : Option Value) (v v' : Value) : Prop where
  here : walkSegments p v' = w
  above : ∀ q seg r, p = q ++ seg :: r → ∀ x, walkSegments q v = some x →
    ∃ x', walkSegments q v' = some x' ∧ x'.isTable = x.isTable
  elsewhere : ∀ q, Apart p q → walkSegments q v' = walkSegments q v

/-- A path apart from another one takes another first step, or is apart from its
rest. -/
theorem Apart.cons_ne {p q : List Segment} {seg : Segment} (h : Apart (seg :: p) q) :
    ∃ seg' q', q = seg' :: q' ∧ (seg' = seg → Apart p q') := by
  cases q with
  | nil => exact absurd List.nil_prefix h.2
  | cons seg' q' =>
      refine ⟨seg', q', rfl, ?_⟩
      rintro rfl
      simpa [Apart, List.cons_prefix_cons] using h

namespace Updates

variable {p : List Segment} {w : Option Value} {t : Table} {k : String} {x y : Item}

/-- The whole tree. -/
theorem whole (v v' : Value) : Updates [] (some v') v v' where
  here := rfl
  above q seg r hp := by cases q <;> cases hp
  elsewhere _ hq := absurd List.nil_prefix hq.1

/-- Into an entry of a table. -/
theorem field (hx : t.lookup k = some x) (h : Updates p w x.toValue y.toValue) :
    Updates (.field k :: p) w (tree t) (tree (t.insert k y)) where
  here := by
    rw [walk_tree_field, Table.lookup_insert_self]
    exact h.here
  above q seg r hp z hz := by
    cases q with
    | nil =>
        cases hz
        exact ⟨_, rfl, rfl⟩
    | cons seg' q =>
        obtain ⟨rfl, htail⟩ := List.cons.inj hp
        rw [walk_tree_field, hx] at hz
        rw [walk_tree_field, Table.lookup_insert_self]
        exact h.above q seg r htail z hz
  elsewhere q hq := by
    obtain ⟨seg, q, rfl, hseg⟩ := hq.cons_ne
    cases seg with
    | index i => rfl
    | field c =>
        rw [walk_tree_field, walk_tree_field]
        by_cases hc : c = k
        · subst hc
          rw [Table.lookup_insert_self, hx]
          exact h.elsewhere q (hseg rfl)
        · rw [Table.lookup_insert_of_ne t y hc]

/-- Before a key is there, its table reads as with an empty table under it. -/
theorem of_empty {v : Value} (hx : t.lookup k = none)
    (h : Updates (.field k :: p) w (tree (t.insert k (.table []))) v) :
    Updates (.field k :: p) w (tree t) v where
  here := h.here
  above q seg r hp z hz := by
    cases q with
    | nil =>
        cases hz
        obtain ⟨z, hz, htable⟩ := h.above [] (.field k) p rfl (tree (t.insert k (.table []))) rfl
        exact ⟨z, hz, htable⟩
    | cons seg' q =>
        obtain ⟨rfl, htail⟩ := List.cons.inj hp
        rw [walk_tree_field, hx] at hz
        cases hz
  elsewhere q hq := by
    rw [h.elsewhere q hq]
    obtain ⟨seg, q, rfl, hseg⟩ := hq.cons_ne
    cases seg with
    | index i => rfl
    | field c =>
        rw [walk_tree_field, walk_tree_field]
        by_cases hc : c = k
        · subst hc
          rw [Table.lookup_insert_self, hx]
          cases q with
          | nil => exact absurd List.nil_prefix (hseg rfl).2
          | cons seg q => cases seg <;> rfl
        · rw [Table.lookup_insert_of_ne t _ hc]

/-- Into a new entry. -/
theorem field_new (hx : t.lookup k = none) (h : Updates p w (tree []) y.toValue) :
    Updates (.field k :: p) w (tree t) (tree (t.insert k y)) := by
  have hself := Table.lookup_insert_self t k (.table [])
  have hup := field (y := y) hself h
  rw [Table.insert_insert] at hup
  exact of_empty hx hup

/-- Into a table of an array of tables. -/
theorem index {ts : List Table} {i : Nat} {t' : Table} (hi : ts[i]? = some t)
    (h : Updates p w (tree t) (tree t')) :
    Updates (.index i :: p) w (Item.arrayOfTables ts).toValue
      (Item.arrayOfTables (ts.set i t')).toValue where
  here := by
    have hlt := (List.getElem?_eq_some_iff.mp hi).1
    rw [walk_tables, List.getElem?_set_self hlt]
    exact h.here
  above q seg r hp z hz := by
    cases q with
    | nil =>
        cases hz
        exact ⟨_, rfl, rfl⟩
    | cons seg' q =>
        obtain ⟨rfl, htail⟩ := List.cons.inj hp
        have hlt := (List.getElem?_eq_some_iff.mp hi).1
        rw [walk_tables, hi] at hz
        rw [walk_tables, List.getElem?_set_self hlt]
        exact h.above q seg r htail z hz
  elsewhere q hq := by
    obtain ⟨seg, q, rfl, hseg⟩ := hq.cons_ne
    cases seg with
    | field c => rfl
    | index j =>
        rw [walk_tables, walk_tables]
        by_cases hj : j = i
        · subst hj
          have hlt := (List.getElem?_eq_some_iff.mp hi).1
          rw [List.getElem?_set_self hlt, hi]
          exact h.elsewhere q (hseg rfl)
        · rw [List.getElem?_set_ne (Ne.symm hj)]

/-- An item put in under a key is an update at that key. -/
theorem insert (t : Table) (k : String) (x : Item) :
    Updates [.field k] (some x.toValue) (tree t) (tree (t.insert k x)) := by
  cases hk : t.lookup k with
  | none => exact field_new hk (whole _ x.toValue)
  | some y => exact field hk (whole _ x.toValue)

/-- An entry removed is an update to nothing at its key. -/
theorem remove (t : Table) (k : String) :
    Updates [.field k] none (tree t) (tree (t.remove k)) where
  here := by
    rw [walk_tree_field, Table.lookup_remove_self]
    rfl
  above q seg r hp z hz := by
    cases q with
    | nil =>
        cases hz
        exact ⟨_, rfl, rfl⟩
    | cons seg' q => cases q <;> cases hp
  elsewhere q hq := by
    obtain ⟨seg, q, rfl, hseg⟩ := hq.cons_ne
    cases seg with
    | index i => rfl
    | field c =>
        have hc : c ≠ k := by
          rintro rfl
          exact (hseg rfl).1 List.nil_prefix
        rw [walk_tree_field, walk_tree_field, Table.lookup_remove_of_ne t hc]

end Updates

end Zebrafish.ConfigTool
