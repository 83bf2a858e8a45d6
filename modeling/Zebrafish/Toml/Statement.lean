import Zebrafish.Toml.Value

/-!
# Toml.Statement

What a sequence of TOML statements (key/value pairs and headers) means.

A document is built statement by statement.  A header says where the key/value
pairs after it go, until the next one; every statement walks from the root,
table by table, and does something to one entry there.  Tables remember how
they came to be, since TOML allows a table to be defined only once: by a
header, by dotted keys, or not yet (a parent of a header).

`run_disjoint` is about sequences that have no top-level key in common: the
second one builds what it builds alone.  `holds_run` and `absent_run` follow
one key through a run.
-/

namespace Toml

/-- How a table came to be. -/
inductive TableKind
  | implicit
  | header
  | dotted
deriving DecidableEq

inductive Node
  | value (v : Value)
  | table (kind : TableKind) (entries : List (String × Node))
  | arrayOfTables (tables : List (List (String × Node)))

abbrev Nodes := List (String × Node)

/-- `a.b.c = v`, `[a.b.c]` and `[[a.b.c]]`: the keys before the last, and the
last. -/
inductive Stmt
  | keyval (parents : List String) (name : String) (v : Value)
  | table (parents : List String) (name : String)
  | arrayTable (parents : List String) (name : String)

/-! ## building -/

/-- A key on the way: what kind of table is created where it is missing, and
which kinds may be entered. -/
structure Hop where
  key : String
  created : TableKind
  enters : TableKind → Bool

/-- A key of a header goes through any table. -/
def headerHop (k : String) : Hop := ⟨k, .implicit, fun _ => true⟩

/-- A key of a dotted key does not go into a table that has its own header. -/
def dottedHop (k : String) : Hop := ⟨k, .dotted, fun kind => kind ≠ .header⟩

/-- Change the last of some tables. -/
def alterLast (f : Nodes → Option Nodes) : List Nodes → Option (List Nodes)
  | [] => none
  | [t] => (f t).map fun t => [t]
  | t :: ts => (alterLast f ts).map fun ts => t :: ts

/-- Go down and do something to the table there; the way through an array of
tables leads into its last one. -/
def descend (act : TableKind → Nodes → Option Nodes) :
    List Hop → TableKind → Nodes → Option Nodes
  | [], kind, t => act kind t
  | hop :: hops, _, t =>
      Assoc.alter hop.key (fun
        | none => (descend act hops hop.created []).map (.table hop.created)
        | some (.table kind entries) =>
            if hop.enters kind then (descend act hops kind entries).map (.table kind) else none
        | some (.arrayOfTables ts) =>
            (alterLast (descend act hops .header) ts).map .arrayOfTables
        | some (.value _) => none) t

/-- A value is defined once. -/
def assign (v : Value) : Option Node → Option Node
  | none => some (.value v)
  | some _ => none

/-- A header defines a table that nothing defined yet. -/
def open? : Option Node → Option Node
  | none => some (.table .header [])
  | some (.table .implicit entries) => some (.table .header entries)
  | some _ => none

/-- A header in double brackets adds a table to an array of tables. -/
def append? : Option Node → Option Node
  | none => some (.arrayOfTables [[]])
  | some (.arrayOfTables ts) => some (.arrayOfTables (ts ++ [[]]))
  | some _ => none

/-- Do `g` to the entry of a table under `name`, if the table may be changed so. -/
def change (ok : TableKind → Bool) (name : String) (g : Option Node → Option Node)
    (kind : TableKind) (t : Nodes) : Option Nodes :=
  if ok kind then Assoc.alter name g t else none

/-- What a statement does to the entry it is about. -/
def Stmt.effect : Stmt → Option Node → Option Node
  | .keyval _ _ v => assign v
  | .table _ _ => open?
  | .arrayTable _ _ => append?

def Stmt.name : Stmt → String
  | .keyval _ name _ => name
  | .table _ name => name
  | .arrayTable _ name => name

/-- The keys before the last, behind the header `header`. -/
def Stmt.hops (header : List String) : Stmt → List Hop
  | .keyval parents _ _ => header.map headerHop ++ parents.map dottedHop
  | .table parents _ => parents.map headerHop
  | .arrayTable parents _ => parents.map headerHop

/-- Dotted keys add to tables of dotted keys only. -/
def Stmt.allows : Stmt → TableKind → Bool
  | .keyval (_ :: _) _ _ => fun kind => kind = .dotted
  | _ => fun _ => true

def Stmt.apply (header : List String) (stmt : Stmt) (root : Nodes) : Option Nodes :=
  descend (change stmt.allows stmt.name stmt.effect) (stmt.hops header) .header root

/-- The header the next statement is under. -/
def Stmt.next (header : List String) : Stmt → List String
  | .keyval _ _ _ => header
  | .table parents name => parents ++ [name]
  | .arrayTable parents name => parents ++ [name]

def run (header : List String) (root : Nodes) : List Stmt → Option Nodes
  | [] => some root
  | stmt :: stmts => (stmt.apply header root).bind fun root => run (stmt.next header) root stmts

mutual

def Node.toValue : Node → Value
  | .value v => v
  | .table _ entries => .table (nodesToValue entries)
  | .arrayOfTables ts => .array (tablesOfNodes ts)

def nodesToValue : List (String × Node) → Entries
  | [] => []
  | (k, x) :: t => (k, x.toValue) :: nodesToValue t

def tablesOfNodes : List (List (String × Node)) → List Value
  | [] => []
  | t :: ts => .table (nodesToValue t) :: tablesOfNodes ts

end

/-- The root table of a document. -/
def document (stmts : List Stmt) : Option Entries := (run [] [] stmts).map nodesToValue

example : (document [.table [] "machine", .keyval [] "id" (.string "a"),
    .keyval ["b"] "c" (.string "d")]).isSome ∧
    (document [.table [] "a", .table [] "a"]).isNone := by decide

/-! ## one step -/

/-- The keys from the root to what a statement is about. -/
def Stmt.path (header : List String) (stmt : Stmt) : List String :=
  (stmt.hops header).map Hop.key ++ [stmt.name]

/-- The top-level key a statement is about. -/
def Stmt.topKey (header : List String) (stmt : Stmt) : String :=
  match stmt.hops header with
  | [] => stmt.name
  | hop :: _ => hop.key

/-- A statement changes one entry of the root, and looks at that one only. -/
theorem Stmt.apply_eq_alter (header : List String) (stmt : Stmt) :
    ∃ f, ∀ root, stmt.apply header root = Assoc.alter (stmt.topKey header) f root := by
  unfold Stmt.apply Stmt.topKey
  cases stmt.hops header with
  | nil =>
      cases hok : stmt.allows .header with
      | true => exact ⟨stmt.effect, fun root => by simp [descend, change, hok]⟩
      | false =>
          refine ⟨fun _ => none, fun root => ?_⟩
          rw [Assoc.alter_refuses]
          simp [descend, change, hok]
  | cons hop hops => exact ⟨_, fun root => rfl⟩

/-- A statement adds its first key. -/
theorem Stmt.mem_keys_apply {header : List String} {stmt : Stmt} {root root' : Nodes}
    (h : stmt.apply header root = some root') {k : String} :
    k ∈ root'.map Prod.fst ↔ k ∈ root.map Prod.fst ∨ k = stmt.topKey header := by
  obtain ⟨f, hf⟩ := stmt.apply_eq_alter header
  rw [hf] at h
  exact Assoc.mem_keys_alter h

/-- A statement on another key leaves the part in front. -/
theorem Stmt.apply_append {header : List String} {stmt : Stmt} {front : Nodes}
    (hk : stmt.topKey header ∉ front.map Prod.fst) (root : Nodes) :
    stmt.apply header (front ++ root) = (stmt.apply header root).map fun root => front ++ root := by
  obtain ⟨f, hf⟩ := stmt.apply_eq_alter header
  rw [hf, hf]
  exact Assoc.alter_append hk root

/-! ## whole runs -/

/-- Statements one after another. -/
theorem run_append (header : List String) (root : Nodes) (a b : List Stmt) :
    run header root (a ++ b) =
      (run header root a).bind fun root' => run (a.foldl Stmt.next header) root' b := by
  induction a generalizing header root with
  | nil => rfl
  | cons stmt a ih =>
      rw [List.cons_append, run, run, List.foldl_cons]
      cases stmt.apply header root with
      | none => rfl
      | some root' => exact ih _ _

/-- The top-level keys the statements of a document are about. -/
def topKeys (header : List String) : List Stmt → List String
  | [] => []
  | stmt :: stmts => stmt.topKey header :: topKeys (stmt.next header) stmts

/-- The keys in the end are those before and the first ones of the statements. -/
theorem mem_keys_run_iff {header : List String} {stmts : List Stmt} {root root' : Nodes}
    (h : run header root stmts = some root') {k : String} :
    k ∈ root'.map Prod.fst ↔ k ∈ root.map Prod.fst ∨ k ∈ topKeys header stmts := by
  induction stmts generalizing header root with
  | nil =>
      cases h
      simp [topKeys]
  | cons stmt stmts ih =>
      obtain ⟨root₁, happly, h⟩ := Option.bind_eq_some_iff.mp h
      rw [ih h, Stmt.mem_keys_apply happly, topKeys, List.mem_cons, or_assoc]

/-- Statements that share no top-level key with what is there build what they
build alone, or fail as they do alone. -/
theorem run_front {header : List String} {stmts : List Stmt} {front : Nodes}
    (hd : ∀ k ∈ front.map Prod.fst, k ∉ topKeys header stmts) (root : Nodes) :
    run header (front ++ root) stmts = (run header root stmts).map fun root => front ++ root := by
  induction stmts generalizing header root with
  | nil => rfl
  | cons stmt stmts ih =>
      have hkey : stmt.topKey header ∉ front.map Prod.fst := by
        intro hmem
        exact hd _ hmem List.mem_cons_self
      rw [run, run, Stmt.apply_append hkey]
      cases stmt.apply header root with
      | none => rfl
      | some root₁ => exact ih (fun k hk hmem => hd k hk (List.mem_cons_of_mem _ hmem)) root₁

/-- Statements on other keys leave the part in front. -/
theorem run_disjoint {header : List String} {stmts : List Stmt} {front root root' : Nodes}
    (h : run header root stmts = some root')
    (hd : ∀ k ∈ front.map Prod.fst, k ∉ root'.map Prod.fst) :
    run header (front ++ root) stmts = some (front ++ root') := by
  rw [run_front (fun k hk hmem => hd k hk ((mem_keys_run_iff h).mpr (Or.inr hmem))), h]
  rfl

/-! ## following a key -/

/-- What is under some keys, one inside the other. -/
def Value.under : List String → Value → Option Value
  | [], v => some v
  | k :: q, .table entries => (entries.lookup k).bind (under q)
  | _ :: _, _ => none

/-- A value that was defined by a key, through tables. -/
def Holds (name : String) (v : Value) : List String → Nodes → Prop
  | [], t => t.lookup name = some (.value v)
  | k :: ks, t => ∃ kind entries, t.lookup k = some (.table kind entries) ∧ Holds name v ks entries

/-- The value of a node is found under its key. -/
theorem lookup_nodesToValue (t : Nodes) (k : String) :
    (nodesToValue t).lookup k = (t.lookup k).map Node.toValue := by
  induction t with
  | nil => rfl
  | cons e t ih =>
      obtain ⟨c, x⟩ := e
      rw [nodesToValue, List.lookup_cons, List.lookup_cons]
      cases k == c with
      | true => rfl
      | false => exact ih

/-- What is read under a key is read in its node. -/
theorem under_nodes (k : String) (q : List String) (t : Nodes) :
    Value.under (k :: q) (.table (nodesToValue t)) =
      (t.lookup k).bind fun x => Value.under q x.toValue := by
  rw [Value.under, lookup_nodesToValue]
  cases t.lookup k <;> rfl

/-- What a tree holds is read there. -/
theorem Holds.under {name : String} {v : Value} {ks : List String} {t : Nodes}
    (h : Holds name v ks t) :
    Value.under (ks ++ [name]) (.table (nodesToValue t)) = some v := by
  induction ks generalizing t with
  | nil =>
      have hname : t.lookup name = some (.value v) := h
      rw [List.nil_append, under_nodes, hname]
      rfl
  | cons k ks ih =>
      obtain ⟨kind, entries, hk, h⟩ := h
      rw [List.cons_append, under_nodes, hk]
      exact ih h

/-- What is done to an entry leaves values alone, and what is in tables. -/
structure Keeps (g : Option Node → Option Node) : Prop where
  value : ∀ v, g (some (.value v)) = none
  table : ∀ kind entries x, g (some (.table kind entries)) = some x →
    ∃ kind', x = .table kind' entries

/-- A statement keeps what other keys hold. -/
theorem Stmt.keeps (stmt : Stmt) : Keeps stmt.effect := by
  cases stmt with
  | keyval parents name v => exact ⟨fun _ => rfl, fun _ _ _ h => by cases h⟩
  | table parents name =>
      refine ⟨fun _ => rfl, fun kind entries x h => ?_⟩
      cases kind with
      | implicit =>
          cases h
          exact ⟨.header, rfl⟩
      | header => cases h
      | dotted => cases h
  | arrayTable parents name => exact ⟨fun _ => rfl, fun _ _ _ h => by cases h⟩

/-- What is held elsewhere is held after a change. -/
theorem Holds.alter_of_ne {name : String} {v : Value} {ks : List String} {t t' : Nodes}
    (h : Holds name v ks t) {c : String} {f : Option Node → Option Node}
    (hc : (ks ++ [name]).head? ≠ some c) (hrun : Assoc.alter c f t = some t') :
    Holds name v ks t' := by
  cases ks with
  | nil =>
      have hne : name ≠ c := by simpa using hc
      exact (Assoc.lookup_alter_of_ne hne hrun).trans h
  | cons k ks =>
      have hne : k ≠ c := by simpa using hc
      obtain ⟨kind, entries, hk, h⟩ := h
      exact ⟨kind, entries, (Assoc.lookup_alter_of_ne hne hrun).trans hk, h⟩

/-- A list starts as each of its starts does. -/
theorem head?_eq_of_isPrefix {a b : List String} (h : a <+: b) (ha : a ≠ []) :
    b.head? = a.head? := by
  obtain ⟨c, rfl⟩ := h
  cases a with
  | nil => exact absurd rfl ha
  | cons k a => rfl

/-- Ways that start with different keys. -/
theorem not_prefix_of_head {a b : List String} {k : String} (ha : a.head? ≠ some k)
    (hne : a ≠ []) (hb : b.head? = some k) : ¬ a <+: b ∧ ¬ b <+: a := by
  constructor
  · intro h
    rw [← head?_eq_of_isPrefix h hne] at ha
    exact ha hb
  · intro h
    have hb0 : b ≠ [] := by
      rintro rfl
      cases hb
    rw [head?_eq_of_isPrefix h hb0] at ha
    exact ha hb

/-- A value that is defined stays, and no way leads to it or through it; and a
value is not defined where the way to it leads through. -/
theorem Holds.descend {name : String} {v : Value} {ok : TableKind → Bool} {last : String}
    {g : Option Node → Option Node} (hg : Keeps g) {ks : List String} {hops : List Hop}
    {kind : TableKind} {t t' : Nodes} (h : Holds name v ks t)
    (hrun : descend (change ok last g) hops kind t = some t') :
    Holds name v ks t' ∧ ¬ (ks ++ [name]) <+: (hops.map Hop.key ++ [last]) ∧
      ((∀ x, g (some x) = none) → ¬ (hops.map Hop.key ++ [last]) <+: (ks ++ [name])) := by
  induction hops generalizing ks kind t t' with
  | nil =>
      rw [Toml.descend, change] at hrun
      split at hrun
      · by_cases hc : (ks ++ [name]).head? = some last
        · obtain ⟨x, hx, hx'⟩ := Assoc.lookup_alter_self hrun
          cases ks with
          | nil =>
              obtain rfl : name = last := by simpa using hc
              have hname : t.lookup name = some (.value v) := h
              rw [hname, hg.value] at hx
              cases hx
          | cons k ks =>
              obtain rfl : k = last := by simpa using hc
              obtain ⟨kind', entries, hk, h⟩ := h
              rw [hk] at hx
              obtain ⟨kind'', rfl⟩ := hg.table _ _ _ hx
              refine ⟨⟨kind'', entries, hx', h⟩, by simp, ?_⟩
              intro hnone
              rw [hnone] at hx
              cases hx
        · have happart := not_prefix_of_head hc (by simp) (b := [last]) rfl
          exact ⟨h.alter_of_ne hc hrun, happart.1, fun _ => happart.2⟩
      · cases hrun
  | cons hop hops ih =>
      rw [Toml.descend] at hrun
      by_cases hc : (ks ++ [name]).head? = some hop.key
      · obtain ⟨x, hx, hx'⟩ := Assoc.lookup_alter_self hrun
        cases ks with
        | nil =>
            obtain rfl : name = hop.key := by simpa using hc
            have hname : t.lookup hop.key = some (.value v) := h
            rw [hname] at hx
            cases hx
        | cons k ks =>
            obtain rfl : k = hop.key := by simpa using hc
            obtain ⟨kind', entries, hk, h⟩ := h
            rw [hk] at hx
            simp only at hx
            split at hx
            · obtain ⟨entries', hentries, rfl⟩ := Option.map_eq_some_iff.mp hx
              obtain ⟨hholds, hto, hthrough⟩ := ih h hentries
              refine ⟨⟨kind', entries', hx', hholds⟩, ?_, ?_⟩
              · simpa using hto
              · simpa using hthrough
            · cases hx
      · have happart := not_prefix_of_head hc (by simp)
          (b := hop.key :: (hops.map Hop.key ++ [last])) rfl
        exact ⟨h.alter_of_ne hc hrun, happart.1, fun _ => happart.2⟩

/-- What is done to an entry gives nothing new to read inside of it. -/
def Quiet (g : Option Node → Option Node) : Prop :=
  ∀ x y, g x = some y → ∀ k q, Value.under (k :: q) y.toValue =
    x.bind fun x => Value.under (k :: q) x.toValue

theorem quiet_open : Quiet open? := by
  intro x y h k q
  cases x with
  | none =>
      cases h
      rfl
  | some x =>
      cases x with
      | value v => cases h
      | arrayOfTables ts => cases h
      | table kind entries =>
          cases kind with
          | implicit =>
              cases h
              rfl
          | header => cases h
          | dotted => cases h

theorem quiet_append : Quiet append? := by
  intro x y h k q
  cases x with
  | none =>
      cases h
      rfl
  | some x =>
      cases x with
      | value v => cases h
      | arrayOfTables ts =>
          cases h
          rfl
      | table kind entries => cases h

/-- Nothing is read at `q` after a way that does not lead to it or through it. -/
theorem absent_descend {ok : TableKind → Bool} {last : String} {g : Option Node → Option Node}
    {hops : List Hop} {kind : TableKind} {t t' : Nodes}
    (hrun : descend (change ok last g) hops kind t = some t') {c : String} {q : List String}
    (h : Value.under (c :: q) (.table (nodesToValue t)) = none)
    (hto : ¬ (c :: q) <+: (hops.map Hop.key ++ [last]))
    (hthrough : ¬ Quiet g → ¬ (hops.map Hop.key ++ [last]) <+: (c :: q)) :
    Value.under (c :: q) (.table (nodesToValue t')) = none := by
  induction hops generalizing c q kind t t' with
  | nil =>
      rw [descend, change] at hrun
      split at hrun
      · rw [under_nodes] at h ⊢
        by_cases hc : c = last
        · subst hc
          obtain ⟨y, hy, hy'⟩ := Assoc.lookup_alter_self hrun
          rw [hy']
          cases q with
          | nil => exact absurd (by simp) hto
          | cons k q =>
              have hquiet : Quiet g := by
                by_contra hg
                exact hthrough hg (by simp)
              rw [Option.bind_some, hquiet _ _ hy]
              exact h
        · rw [Assoc.lookup_alter_of_ne hc hrun]
          exact h
      · cases hrun
  | cons hop hops ih =>
      rw [descend] at hrun
      rw [under_nodes] at h ⊢
      by_cases hc : c = hop.key
      · subst hc
        obtain ⟨y, hy, hy'⟩ := Assoc.lookup_alter_self hrun
        rw [hy']
        cases q with
        | nil => exact absurd (by simp) hto
        | cons k q =>
            have hto' : ¬ (k :: q) <+: (hops.map Hop.key ++ [last]) := by simpa using hto
            have hthrough' : ¬ Quiet g → ¬ (hops.map Hop.key ++ [last]) <+: (k :: q) := by
              simpa using hthrough
            cases hx : t.lookup hop.key with
            | none =>
                rw [hx] at hy
                obtain ⟨t₁, ht₁, rfl⟩ := Option.map_eq_some_iff.mp hy
                exact ih ht₁ rfl hto' hthrough'
            | some x =>
                rw [hx] at hy h
                cases x with
                | value v => cases hy
                | arrayOfTables ts =>
                    obtain ⟨ts', _, rfl⟩ := Option.map_eq_some_iff.mp hy
                    rfl
                | table kind' entries =>
                    simp only at hy
                    split at hy
                    · obtain ⟨t₁, ht₁, rfl⟩ := Option.map_eq_some_iff.mp hy
                      exact ih ht₁ h hto' hthrough'
                    · cases hy
      · rw [Assoc.lookup_alter_of_ne hc hrun]
        exact h

/-! ## following a key through a run -/

def Stmt.isKeyval : Stmt → Bool
  | .keyval _ _ _ => true
  | _ => false

/-- No statement leads to `q` or through it, or gives a value to a key on the
way to it. -/
def Clear (q : List String) (header : List String) : List Stmt → Prop
  | [] => True
  | stmt :: stmts =>
      (¬ q <+: stmt.path header ∧ (stmt.isKeyval → ¬ stmt.path header <+: q)) ∧
        Clear q (stmt.next header) stmts

/-- What is held is held in the end, and no statement was in its way. -/
theorem holds_run {name : String} {v : Value} {ks : List String} {header : List String}
    {stmts : List Stmt} {root root' : Nodes} (h : Holds name v ks root)
    (hrun : run header root stmts = some root') :
    Holds name v ks root' ∧ Clear (ks ++ [name]) header stmts := by
  induction stmts generalizing header root with
  | nil =>
      cases hrun
      exact ⟨h, trivial⟩
  | cons stmt stmts ih =>
      obtain ⟨root₁, happly, hrun⟩ := Option.bind_eq_some_iff.mp hrun
      obtain ⟨h₁, hto, hthrough⟩ := h.descend stmt.keeps happly
      obtain ⟨h', hclear⟩ := ih h₁ hrun
      refine ⟨h', ⟨hto, ?_⟩, hclear⟩
      intro hkeyval
      refine hthrough ?_
      cases stmt with
      | keyval parents name v => exact fun _ => rfl
      | table parents name => cases hkeyval
      | arrayTable parents name => cases hkeyval

/-- What is absent is absent in the end, if no statement says it. -/
theorem absent_run {c : String} {q : List String} {header : List String} {stmts : List Stmt}
    (hclear : Clear (c :: q) header stmts) {root root' : Nodes}
    (h : Value.under (c :: q) (.table (nodesToValue root)) = none)
    (hrun : run header root stmts = some root') :
    Value.under (c :: q) (.table (nodesToValue root')) = none := by
  induction stmts generalizing header root with
  | nil =>
      cases hrun
      exact h
  | cons stmt stmts ih =>
      obtain ⟨root₁, happly, hrun⟩ := Option.bind_eq_some_iff.mp hrun
      obtain ⟨⟨hto, hthrough⟩, hclear⟩ := hclear
      refine ih hclear (absent_descend happly h hto ?_) hrun
      intro hquiet
      refine hthrough ?_
      cases stmt with
      | keyval parents name v => rfl
      | table parents name => exact absurd quiet_open hquiet
      | arrayTable parents name => exact absurd quiet_append hquiet

/-- The path of a key is its header and its dotted key. -/
theorem Stmt.path_keyval (header parents : List String) (name : String) (v : Value) :
    (Stmt.keyval parents name v).path header = header ++ (parents ++ [name]) := by
  have hheader : header.map (Hop.key ∘ headerHop) = header := by
    rw [show Hop.key ∘ headerHop = id from rfl, List.map_id]
  have hparents : parents.map (Hop.key ∘ dottedHop) = parents := by
    rw [show Hop.key ∘ dottedHop = id from rfl, List.map_id]
  simp only [Stmt.path, Stmt.hops, List.map_append, List.map_map, hheader, hparents, Stmt.name,
    List.append_assoc]

/-- Under a header with another top-level key, the way to `q` is clear too. -/
theorem Clear.under {c : String} {q : List String} {header : List String} {stmts : List Stmt}
    (h : Clear (c :: q) header stmts) {x : String} {header' : List String} (hx : x ≠ c) :
    Clear (c :: q) (x :: header') stmts := by
  induction stmts generalizing header with
  | nil => trivial
  | cons stmt stmts ih =>
      obtain ⟨hstmt, hrest⟩ := h
      cases stmt with
      | keyval parents name v =>
          have happart := not_prefix_of_head (a := c :: q) (k := x)
            (b := (Stmt.keyval parents name v).path (x :: header')) (by simpa using Ne.symm hx)
            (by simp) (by rw [Stmt.path_keyval]; rfl)
          exact ⟨⟨happart.1, fun _ => happart.2⟩, ih hrest⟩
      | table parents name => exact ⟨hstmt, hrest⟩
      | arrayTable parents name => exact ⟨hstmt, hrest⟩

/-- The first key of a document is defined. -/
theorem holds_descend {ok : TableKind → Bool} {name : String} {v : Value} {parents : List String}
    {kind : TableKind} {t' : Nodes}
    (h : descend (change ok name (assign v)) (parents.map dottedHop) kind [] = some t') :
    Holds name v parents t' := by
  induction parents generalizing kind t' with
  | nil =>
      rw [List.map_nil, descend, change] at h
      split at h
      · cases h
        simp [Holds]
      · cases h
  | cons k parents ih =>
      rw [List.map_cons, descend] at h
      obtain ⟨y, hy, hy'⟩ := Assoc.lookup_alter_self h
      obtain ⟨t₁, ht₁, rfl⟩ := Option.map_eq_some_iff.mp hy
      exact ⟨_, t₁, hy', ih ht₁⟩

/-- A document whose first key gets below a header loses that key. -/
theorem first_key_lost {parents : List String} {name : String} {v : Value} {stmts : List Stmt}
    {alone : Nodes} (halone : run [] [] (.keyval parents name v :: stmts) = some alone)
    {x : String} {header : List String} {front root : Nodes}
    (hx : (parents ++ [name]).head? ≠ some x)
    (hfront : Value.under (parents ++ [name]) (.table (nodesToValue front)) = none)
    (hrun : run (x :: header) front (.keyval parents name v :: stmts) = some root) :
    Value.under (parents ++ [name]) (.table (nodesToValue alone)) = some v ∧
      Value.under (parents ++ [name]) (.table (nodesToValue root)) = none := by
  obtain ⟨root₁, happly, hrest⟩ := Option.bind_eq_some_iff.mp halone
  have hholds : Holds name v parents root₁ := holds_descend happly
  obtain ⟨hkept, hclear⟩ := holds_run hholds hrest
  refine ⟨hkept.under, ?_⟩
  obtain ⟨c, q, hq⟩ : ∃ c q, parents ++ [name] = c :: q := by
    cases parents with
    | nil => exact ⟨name, [], rfl⟩
    | cons k parents => exact ⟨k, parents ++ [name], rfl⟩
  rw [hq] at hx hfront hclear ⊢
  have hne : x ≠ c := by simpa [eq_comm] using hx
  have happart := not_prefix_of_head (a := c :: q) (k := x)
    (b := (Stmt.keyval parents name v).path (x :: header)) (by simpa using Ne.symm hne)
    (by simp) (by rw [Stmt.path_keyval]; rfl)
  have hall : Clear (c :: q) (x :: header) (.keyval parents name v :: stmts) :=
    ⟨⟨happart.1, fun _ => happart.2⟩, hclear.under hne⟩
  exact absent_run hall hfront hrun

/-! ## the header at the end -/

/-- Without a header, the header stays. -/
theorem foldl_next_of_keyvals {stmts : List Stmt} (h : stmts.all Stmt.isKeyval)
    (header : List String) : stmts.foldl Stmt.next header = header := by
  induction stmts with
  | nil => rfl
  | cons stmt stmts ih =>
      simp only [List.all_cons, Bool.and_eq_true] at h
      cases stmt with
      | keyval parents name v => exact ih h.2
      | table parents name => cases h.1
      | arrayTable parents name => cases h.1

/-- Once there is a header, there is one in the end. -/
theorem foldl_next_ne_nil {stmts : List Stmt} {header : List String} (h : header ≠ []) :
    stmts.foldl Stmt.next header ≠ [] := by
  induction stmts generalizing header with
  | nil => exact h
  | cons stmt stmts ih =>
      refine ih ?_
      cases stmt with
      | keyval parents name v => exact h
      | table parents name => simp [Stmt.next]
      | arrayTable parents name => simp [Stmt.next]

/-- With a header in it, a text ends under one. -/
theorem foldl_next_of_header {stmts : List Stmt} (h : ¬ stmts.all Stmt.isKeyval)
    (header : List String) : stmts.foldl Stmt.next header ≠ [] := by
  induction stmts generalizing header with
  | nil => exact absurd rfl h
  | cons stmt stmts ih =>
      cases stmt with
      | keyval parents name v => exact ih h header
      | table parents name =>
          rw [List.foldl_cons]
          exact foldl_next_ne_nil (by simp [Stmt.next])
      | arrayTable parents name =>
          rw [List.foldl_cons]
          exact foldl_next_ne_nil (by simp [Stmt.next])

/-- The first key of the current header is a key of the root. -/
theorem head_next_mem {stmts : List Stmt} {header : List String} {root root' : Nodes}
    (h : ∀ x, header.head? = some x → x ∈ root.map Prod.fst)
    (hrun : run header root stmts = some root') :
    ∀ x, (stmts.foldl Stmt.next header).head? = some x → x ∈ root'.map Prod.fst := by
  induction stmts generalizing header root with
  | nil =>
      cases hrun
      exact h
  | cons stmt stmts ih =>
      obtain ⟨root₁, happly, hrun⟩ := Option.bind_eq_some_iff.mp hrun
      refine ih ?_ hrun
      intro x hx
      rw [Stmt.mem_keys_apply happly]
      cases stmt with
      | keyval parents name v => exact Or.inl (h x hx)
      | table parents name =>
          refine Or.inr ?_
          cases parents <;> cases hx <;> rfl
      | arrayTable parents name =>
          refine Or.inr ?_
          cases parents <;> cases hx <;> rfl

end Toml
