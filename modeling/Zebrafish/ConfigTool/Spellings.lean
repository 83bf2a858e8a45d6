import Zebrafish.ConfigTool.Commands

/-!
# Zebrafish.ConfigTool.Spellings

`remove`, over all the ways to write a table.

A table has a header of its own, or there is none for it (dotted keys, and
`[a.b]` without `[a]`), or it is an inline table, which is a value.  A table
without a header of its own is gone from the file with its last entry
(`Item.reread`).  The walk of `remove` stops at an inline table and reports
success (`removeInItem_unchanged`), so that the key stays.
-/

namespace Zebrafish.ConfigTool

open Toml Rust

/-! ## reading back -/

mutual

/-- An item as it is read back; `own` are the tables with a header of their own. -/
def Item.reread (own : List Segment → Bool) (here : List Segment) : Item → Option Item
  | .value v => some (.value v)
  | .table t =>
      let t := rereadEntries own here t
      if t.isEmpty && !own here then none else some (.table t)
  | .arrayOfTables ts =>
      if ts.isEmpty then none else some (.arrayOfTables (rereadTables own here 0 ts))

def rereadEntries (own : List Segment → Bool) (here : List Segment) :
    List (String × Item) → List (String × Item)
  | [] => []
  | (k, x) :: t =>
      match x.reread own (here ++ [.field k]) with
      | some x => (k, x) :: rereadEntries own here t
      | none => rereadEntries own here t

def rereadTables (own : List Segment → Bool) (here : List Segment) :
    Nat → List (List (String × Item)) → List (List (String × Item))
  | _, [] => []
  | i, t :: ts => rereadEntries own (here ++ [.index i]) t :: rereadTables own here (i + 1) ts

end

/-- The document in the file after `remove`. -/
def removeFile (own : List Segment → Bool) (file : Bool) (doc : Table) (key : String) :
    Except EditError Table := do
  let doc ← Command.apply file doc (.remove key)
  .ok (rereadEntries own [] doc)

/-- A document as it is read from a file: each key once, and a table without a
header of its own has entries. -/
structure Parsed (own : List Segment → Bool) (doc : Table) : Prop where
  distinct : doc.Good fun _ => True
  same : rereadEntries own [] doc = doc

variable {own : List Segment → Bool} {here : List Segment} {t : Table} {k : String} {x : Item}

def rereadEntry (own : List Segment → Bool) (here : List Segment) (e : String × Item) :
    Option (String × Item) :=
  (e.2.reread own (here ++ [.field e.1])).map fun x => (e.1, x)

/-- A table is read back entry by entry. -/
theorem rereadEntries_eq (own : List Segment → Bool) (here : List Segment) (t : Table) :
    rereadEntries own here t = t.filterMap (rereadEntry own here) := by
  induction t with
  | nil => rfl
  | cons e t ih =>
      obtain ⟨k, x⟩ := e
      rw [rereadEntries, ih, List.filterMap_cons, rereadEntry]
      cases x.reread own (here ++ [.field k]) <;> rfl

/-- Where reading back changes nothing, it changes no entry. -/
theorem rereadEntries_same (h : rereadEntries own here t = t) :
    ∀ e ∈ t, e.2.reread own (here ++ [.field e.1]) = some e.2 := by
  induction t with
  | nil => simp
  | cons e t ih =>
      obtain ⟨k, x⟩ := e
      have hle : (rereadEntries own here t).length ≤ t.length := by
        rw [rereadEntries_eq]
        exact List.length_filterMap_le _ _
      rw [rereadEntries] at h
      cases hx : x.reread own (here ++ [.field k]) with
      | none =>
          rw [hx] at h
          simp only at h
          rw [h] at hle
          simp at hle
      | some y =>
          rw [hx] at h
          simp only [List.cons.injEq, Prod.mk.injEq, true_and] at h
          obtain ⟨rfl, h⟩ := h
          simpa [hx] using fun k' y' hy => ih h (k', y') hy

/-- The entries of a document that is read back as it is are, too. -/
theorem rereadEntry_same (h : rereadEntries own here t = t) {e : String × Item} (he : e ∈ t) :
    rereadEntry own here e = some e := by
  rw [rereadEntry, rereadEntries_same h e he]
  rfl

/-- A table whose entries are read back as they are is, too. -/
theorem rereadEntries_of_entries (h : ∀ e ∈ t, rereadEntry own here e = some e) :
    rereadEntries own here t = t := by
  have hid : ∀ e ∈ t, rereadEntry own here e = some (id e) := h
  rw [rereadEntries_eq, List.filterMap_eq_map_iff_forall_eq_some.mpr hid, List.map_id]

/-- So is it with one of its entries removed. -/
theorem reread_remove (h : rereadEntries own here t = t) (k : String) :
    rereadEntries own here (t.remove k) = t.remove k :=
  rereadEntries_of_entries fun _ he => rereadEntry_same h (List.mem_filter.mp he).1

/-- One item changed, in a table that was read from a file. -/
theorem reread_insert (h : rereadEntries own here t = t) (hk : (t.lookup k).isSome) :
    rereadEntries own here (t.insert k x) =
      match x.reread own (here ++ [.field k]) with
      | some y => t.insert k y
      | none => t.remove k := by
  have hself : rereadEntry own here (k, x) =
      (x.reread own (here ++ [.field k])).map fun y => (k, y) := rfl
  have hinsert : t.insert k x = t.map fun e => if e.1 = k then (k, x) else e := if_pos hk
  rw [rereadEntries_eq, hinsert, List.filterMap_map]
  cases hx : x.reread own (here ++ [.field k]) with
  | some y =>
      rw [hx] at hself
      simp only [Table.insert, if_pos hk]
      refine List.filterMap_eq_map_iff_forall_eq_some.mpr ?_
      intro e he
      simp only [Function.comp]
      split
      · exact hself
      · exact rereadEntry_same h he
  | none =>
      rw [hx] at hself
      rw [Table.remove, ← List.filterMap_eq_filter]
      refine List.filterMap_congr ?_
      intro e he
      by_cases hc : e.1 = k
      · simp [hc, hself, Option.guard]
      · simp [hc, rereadEntry_same h he, Option.guard]

/-- The table under a key reads back as it is, too. -/
theorem reread_table {u : Table} (h : rereadEntries own here t = t)
    (hu : t.lookup k = some (.table u)) : rereadEntries own (here ++ [.field k]) u = u := by
  have hsame := rereadEntries_same h _ (Assoc.mem_of_lookup hu)
  rw [Item.reread] at hsame
  split at hsame
  · cases hsame
  · exact Item.table.inj (Option.some.inj hsame)

/-! ## the walk -/

/-- The tables on the way to the last key are not inline tables. -/
def headed : Table → List Segment → Bool
  | _, [.field _] => true
  | t, .field k :: seg :: rest =>
      match t.lookup k with
      | some (.table u) => headed u (seg :: rest)
      | _ => false
  | _, _ => false

/-- The item under a key put back. -/
theorem Table.insert_same (h : (t.map Prod.fst).Nodup) (hx : t.lookup k = some x) :
    t.insert k x = t := by
  have hsome : (t.lookup k).isSome := by rw [hx]; rfl
  rw [Table.insert, if_pos hsome]
  refine (List.map_congr_left (g := id) ?_).trans (List.map_id t)
  rintro ⟨c, y⟩ he
  have hy := Assoc.lookup_of_mem h he
  by_cases hc : c = k
  · subst hc
    rw [hx] at hy
    cases hy
    simp
  · simp [hc]

/-- Only from a table is a key removed. -/
theorem removeInItem_of_noTable (hx : x.asTableMut = none) {path : List Segment} {name : String}
    (hlast : path.getLast? = some (.field name)) {y : Item} (hok : removeInItem x path = .ok y) :
    y = x := by
  match path, hlast, hok with
  | [.field k], _, hok =>
      rw [removeInItem, hx] at hok
      cases hok
      rfl
  | .index i :: seg :: tail, _, hok => cases hok
  | .field k :: seg :: tail, _, hok =>
      cases x with
      | table u => cases hx
      | value v =>
          cases hok
          rfl
      | arrayOfTables ts =>
          cases hok
          rfl

/-- Where there is nothing at the path, and where an inline table is on the way,
nothing is removed. -/
theorem removeInItem_unchanged {path : List Segment} (h : t.Good fun _ => True) {name : String}
    (hlast : path.getLast? = some (.field name))
    (hskip : walkSegments path (tree t) = none ∨ headed t path = false) {y : Item}
    (hok : removeInItem (.table t) path = .ok y) : y = .table t := by
  induction path generalizing t y with
  | nil => cases hlast
  | cons seg tail ih =>
      cases tail with
      | nil =>
          cases hlast
          rcases hskip with hnone | hhead
          · rw [walk_tree_field, Option.bind_eq_none_iff] at hnone
            have hlookup : t.lookup name = none := by
              cases hx : t.lookup name with
              | none => rfl
              | some x => cases hnone x hx
            cases hok
            rw [Table.remove_of_absent hlookup]
          · cases hhead
      | cons seg' tail =>
          cases seg with
          | index i => cases hok
          | field k =>
              rw [List.getLast?_cons_cons] at hlast
              rw [removeInItem] at hok
              cases hx : t.lookup k with
              | none =>
                  simp only [hx] at hok
                  cases hok
                  rfl
              | some x =>
                  have hsame := Table.insert_same ((Table.good_iff t).mp h).1 hx
                  have hrest : ∀ z, removeInItem x (seg' :: tail) = .ok z → z = x := by
                    intro z hz
                    cases x with
                    | table u =>
                        refine ih (h.lookup hx) hlast ?_ hz
                        rwa [walk_tree_field, hx, headed, hx] at hskip
                    | value v => exact removeInItem_of_noTable rfl hlast hz
                    | arrayOfTables ts => exact removeInItem_of_noTable rfl hlast hz
                  simp only [hx] at hok
                  cases hrec : removeInItem x (seg' :: tail) with
                  | error e =>
                      rw [hrec] at hok
                      cases hok
                  | ok z =>
                      rw [hrec] at hok
                      cases hok
                      rw [hrest z hrec, hsame]

/-- What is asked of a removal from one table. -/
structure Gone (path : List Segment) (t t' : Table) : Prop where
  missing : walkSegments path (tree t') = none
  elsewhere : ∀ q, Apart path q → walkSegments q (tree t') = walkSegments q (tree t)

/-- What is removed from a table is gone. -/
theorem Gone.remove (t : Table) (k : String) : Gone [.field k] t (t.remove k) where
  missing := (Updates.remove t k).here
  elsewhere := (Updates.remove t k).elsewhere

/-- In a table of the table. -/
theorem Gone.field {path : List Segment} {u u' : Table} (hx : t.lookup k = some (.table u))
    (h : Gone path u u') : Gone (.field k :: path) t (t.insert k (.table u')) where
  missing := by
    rw [walk_tree_field, Table.lookup_insert_self]
    exact h.missing
  elsewhere q hq := by
    obtain ⟨seg, q, rfl, hseg⟩ := hq.cons_ne
    cases seg with
    | index i => rfl
    | field c =>
        rw [walk_tree_field, walk_tree_field]
        by_cases hc : c = k
        · subst hc
          rw [Table.lookup_insert_self, hx]
          exact h.elsewhere q (hseg rfl)
        · rw [Table.lookup_insert_of_ne t _ hc]

/-- In a table of the table that is gone with it. -/
theorem Gone.emptied {path : List Segment} {u : Table} (hx : t.lookup k = some (.table u))
    (h : Gone path u []) : Gone (.field k :: path) t (t.remove k) where
  missing := by
    rw [walk_tree_field, Table.lookup_remove_self]
    rfl
  elsewhere q hq := by
    obtain ⟨seg, q, rfl, hseg⟩ := hq.cons_ne
    cases seg with
    | index i => rfl
    | field c =>
        rw [walk_tree_field, walk_tree_field]
        by_cases hc : c = k
        · subst hc
          have hq' := hseg rfl
          rw [Table.lookup_remove_self, hx]
          -- nothing else was in the table
          have hnone : walkSegments q (tree []) = none := by
            cases q with
            | nil => exact absurd List.nil_prefix hq'.2
            | cons seg q => cases seg <;> rfl
          rw [h.elsewhere q hq'] at hnone
          exact hnone.symm
        · rw [Table.lookup_remove_of_ne t hc]

/-- The removal from a table that is reached by headers, as it is read back. -/
theorem removeInItem_headed {path : List Segment} (hsame : rereadEntries own here t = t)
    (hhead : headed t path = true) :
    ∃ t', removeInItem (.table t) path = .ok (.table t') ∧
      Gone path t (rereadEntries own here t') ∧
      removeInItem (.table (rereadEntries own here t')) path =
        .ok (.table (rereadEntries own here t')) ∧
      rereadEntries own here (rereadEntries own here t') = rereadEntries own here t' := by
  induction path generalizing t here with
  | nil => cases hhead
  | cons seg tail ih =>
      cases seg with
      | index i => cases hhead
      | field k =>
          cases tail with
          | nil =>
              refine ⟨t.remove k, rfl, ?_⟩
              rw [reread_remove hsame]
              refine ⟨.remove t k, ?_, reread_remove hsame k⟩
              have habsent := Table.remove_of_absent (Table.lookup_remove_self t k)
              simp only [removeInItem, Item.asTableMut, habsent]
          | cons seg tail =>
              rw [headed] at hhead
              cases hx : t.lookup k with
              | none =>
                  simp only [hx] at hhead
                  cases hhead
              | some x =>
                  cases x with
                  | value v =>
                      simp only [hx] at hhead
                      cases hhead
                  | arrayOfTables ts =>
                      simp only [hx] at hhead
                      cases hhead
                  | table u =>
                      simp only [hx] at hhead
                      obtain ⟨u', hu', hgone, hagain, hstays⟩ := ih (reread_table hsame hx) hhead
                      have hsome : (t.lookup k).isSome := by rw [hx]; rfl
                      refine ⟨t.insert k (.table u'), ?_, ?_⟩
                      · simp only [removeInItem, hx, hu', ok_bind]
                      · rw [reread_insert hsame hsome, Item.reread]
                        generalize rereadEntries own (here ++ [.field k]) u' = u''
                          at hgone hagain hstays
                        by_cases hempty : u''.isEmpty && !own (here ++ [.field k])
                        · have hnil : u'' = [] := by simp_all
                          subst hnil
                          simp only [hempty, if_true]
                          refine ⟨hgone.emptied hx, ?_, reread_remove hsame k⟩
                          simp only [removeInItem, Table.lookup_remove_self]
                        · simp only [hempty, Bool.false_eq_true, if_false]
                          refine ⟨hgone.field hx, ?_, ?_⟩
                          · simp only [removeInItem, Table.lookup_insert_self, hagain, ok_bind,
                              Table.insert_insert]
                          · rw [reread_insert hsame hsome, Item.reread, hstays]
                            simp only [hempty, Bool.false_eq_true, if_false]

/-! ## the command -/

/-- A document is walked like any table. -/
theorem removeInDoc_ok_iff (doc doc' : Table) {path : List Segment} {sec : String}
    (hsec : path.head? = some (.field sec)) :
    removeInDoc doc path = .ok doc' ↔ removeInItem (.table doc) path = .ok (.table doc') := by
  obtain ⟨tail, rfl⟩ := List.head?_eq_some_iff.mp hsec
  rw [← removeInDoc_eq]
  cases removeInDoc doc (.field sec :: tail) with
  | error e => simp [Except.map]
  | ok t => simp [Except.map]

/-- When a path may be written. -/
theorem writablePath_ok_iff {file : Bool} {key refusal : String} {path path' : KeyPath}
    (hkey : KeyPath.parse key = some path) :
    writablePath file key refusal = .ok path' ↔
      (∃ sec, path.segments.head? = some (.field sec) ∧ (sec = "machine" && file) = false) ∧
        path = path' := by
  cases hhead : path.segments.head? with
  | none => simp [writablePath, hkey, KeyPath.section?, hhead]
  | some seg =>
      cases seg with
      | index i => simp [writablePath, hkey, KeyPath.section?, hhead]
      | field sec =>
          by_cases hmachine : sec = "machine" <;> cases file <;>
            simp [writablePath, hkey, KeyPath.section?, hhead, hmachine]

/-- What `remove` does with the document, once it may write it. -/
theorem removeFile_ok_iff {file : Bool} {doc d : Table} {key : String} {path : KeyPath}
    (hkey : KeyPath.parse key = some path) :
    removeFile own file doc key = .ok d ↔
      (∃ sec, path.segments.head? = some (.field sec) ∧ (sec = "machine" && file) = false) ∧
        ∃ doc', removeInDoc doc path.segments = .ok doc' ∧ rereadEntries own [] doc' = d := by
  simp only [removeFile, Command.apply, bind_ok_iff, writablePath_ok_iff hkey, Except.ok.injEq]
  constructor
  · rintro ⟨doc', ⟨_, ⟨hsec, rfl⟩, hdoc'⟩, rfl⟩
    exact ⟨hsec, doc', hdoc', rfl⟩
  · rintro ⟨hsec, doc', hdoc', rfl⟩
    exact ⟨doc', ⟨_, ⟨hsec, rfl⟩, hdoc'⟩, rfl⟩

/-- **Removing a key.**  In every spelling of the tables: after a successful
`remove` the key is missing, every path that leads elsewhere reads as before and
a second `remove` changes nothing, if and only if the key was missing before or
no table on the way to it is an inline table. -/
theorem remove_gone_iff {file : Bool} {doc d : Table} {key : String} {path : KeyPath}
    {name : String} (hdoc : Parsed own doc) (hkey : KeyPath.parse key = some path)
    (hlast : path.segments.getLast? = some (.field name))
    (hok : removeFile own file doc key = .ok d) :
    (walkSegments path.segments (tree d) = none ∧
        (∀ q, Apart path.segments q → walkSegments q (tree d) = walkSegments q (tree doc)) ∧
        removeFile own file d key = .ok d) ↔
      walkSegments path.segments (tree doc) = none ∨ headed doc path.segments = true := by
  obtain ⟨⟨sec, hsec, hfile⟩, doc', hdoc', rfl⟩ := (removeFile_ok_iff hkey).mp hok
  rw [removeInDoc_ok_iff doc doc' hsec] at hdoc'
  have hskip : walkSegments path.segments (tree doc) = none ∨ headed doc path.segments = false →
      doc' = doc := by
    intro h
    exact Item.table.inj (removeInItem_unchanged hdoc.distinct hlast h hdoc')
  constructor
  · rintro ⟨hmissing, _, _⟩
    cases hhead : headed doc path.segments with
    | true => exact Or.inr rfl
    | false =>
        rw [hskip (Or.inr hhead), hdoc.same] at hmissing
        exact Or.inl hmissing
  · rintro (hnone | hhead)
    · have heq := hskip (Or.inl hnone)
      subst heq
      rw [hdoc.same] at hok ⊢
      exact ⟨hnone, fun _ _ => rfl, hok⟩
    · obtain ⟨t', ht', hgone, hagain, hstays⟩ := removeInItem_headed hdoc.same hhead
      rw [hdoc'] at ht'
      cases ht'
      refine ⟨hgone.missing, hgone.elsewhere, ?_⟩
      rw [removeFile_ok_iff hkey]
      refine ⟨⟨sec, hsec, hfile⟩, _, (removeInDoc_ok_iff _ _ hsec).mpr hagain, hstays⟩

/-- `hostname.name = "web1"`, and a port under `[ssh]`. -/
def dottedDoc : Table :=
  [("hostname", .table [("name", .value (.string "web1"))]),
    ("ssh", .table [("port", .value (.integer 22))])]

def sshDoc : Table := [("ssh", .table [("port", .value (.integer 22))])]

theorem remove_gone_dotted :
    let own : List Segment → Bool := fun q => q = [.field "ssh"]
    removeFile own true dottedDoc "hostname.name" = .ok sshDoc ∧
      walkSegments [.field "hostname", .field "name"] (tree sshDoc) = none ∧
      (∀ q, Apart [.field "hostname", .field "name"] q →
        walkSegments q (tree sshDoc) = walkSegments q (tree dottedDoc)) ∧
      removeFile own true sshDoc "hostname.name" = .ok sshDoc := by
  intro own
  have hkey : KeyPath.parse "hostname.name" =
      some ⟨[.field "hostname", .field "name"], by simp⟩ := by
    decide +kernel
  have hok : removeFile own true dottedDoc "hostname.name" = .ok sshDoc :=
    (removeFile_ok_iff hkey).mpr ⟨⟨"hostname", rfl, rfl⟩, _, rfl, rfl⟩
  have hdistinct : dottedDoc.Good fun _ => True := by
    simp [Table.Good, dottedDoc, Item.Good, GoodEntries]
  exact ⟨hok, (remove_gone_iff ⟨hdistinct, rfl⟩ hkey rfl hok).mpr (Or.inr rfl)⟩

/-- A key of an inline table is still there after its removal. -/
theorem inline_key_kept : ¬ ∀ (own : List Segment → Bool) (file : Bool) (doc d : Table)
    (key : String) (path : KeyPath) (name : String), Parsed own doc →
      KeyPath.parse key = some path → path.segments.getLast? = some (.field name) →
      removeFile own file doc key = .ok d →
        walkSegments path.segments (tree d) = none ∧
          (∀ q, Apart path.segments q → walkSegments q (tree d) = walkSegments q (tree doc)) ∧
          removeFile own file d key = .ok d := by
  intro h
  let doc : Table := [("hostname", .value (.table [("name", .string "web1")]))]
  have hkey : KeyPath.parse "hostname.name" =
      some ⟨[.field "hostname", .field "name"], by simp⟩ := by
    decide +kernel
  have hdistinct : doc.Good fun _ => True := by
    simp [Table.Good, doc, Item.Good, GoodEntries]
  have hgone := h (fun _ => false) true doc doc "hostname.name" _ "name" ⟨hdistinct, rfl⟩ hkey rfl
    ((removeFile_ok_iff hkey).mpr ⟨⟨"hostname", rfl, rfl⟩, _, rfl, rfl⟩)
  cases hgone.1

end Zebrafish.ConfigTool
