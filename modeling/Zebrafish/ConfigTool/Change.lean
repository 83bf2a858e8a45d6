import Zebrafish.ConfigTool.Commands

/-!
# Zebrafish.ConfigTool.Change

A command looks at the entry of its section only, and changes that entry only.

What it does to it (`Change`), or why it bails out, depends on what the document
has under the section and on nothing else (`Command.apply_local`).  So it does
not matter in which order the entries of a document are, nor which other
entries are there.
-/

namespace Zebrafish.ConfigTool

open Toml Rust

/-! ## the section of a command -/

/-- The section a command is about, which comes first of all. -/
def Command.target (file : Bool) : Command → Except EditError String
  | .set key _ => do
      let path ← writablePath file key
        "`--file` cannot be used to write [machine]; it is always on the EFI partition"
      unwrapped path.section?
  | .add sec =>
      if sec = "machine" then
        .error (.bail "cannot `add` to [machine]; it is a single-value section")
      else .ok sec
  | .remove key => do
      let path ← writablePath file key
        "`--file` cannot be used to remove from [machine]; it is always on the EFI partition"
      unwrapped path.section?

/-- The key path of a command starts with its section. -/
def Command.About (sec : String) : Command → Prop
  | .set key _ | .remove key => ∃ path p, KeyPath.parse key = some path ∧
      path.segments = .field sec :: p
  | .add sec' => sec' = sec ∧ sec ≠ "machine"

/-- The first segment of a path is its section. -/
theorem segments_of_section {path : KeyPath} {sec : String} (h : path.section? = some sec) :
    ∃ p, path.segments = .field sec :: p := by
  unfold KeyPath.section? at h
  split at h
  · next name hhead =>
      cases h
      obtain ⟨p, hp⟩ := List.head?_eq_some_iff.mp hhead
      exact ⟨p, hp⟩
  · cases h

/-- A path that may be written has a section. -/
theorem writablePath_section (file : Bool) (key refusal : String) :
    Safe (fun sec => ∃ path p, KeyPath.parse key = some path ∧ path.segments = .field sec :: p)
      (writablePath file key refusal >>= fun path => unwrapped path.section?) := by
  have hsafe := writablePath_safe file key refusal
  cases hwritable : writablePath file key refusal with
  | error e =>
      rw [hwritable] at hsafe
      exact hsafe
  | ok path =>
      rw [ok_bind]
      cases hsec : path.section? with
      | some sec =>
          obtain ⟨p, hp⟩ := segments_of_section hsec
          exact ⟨path, p, writablePath_ok hwritable, hp⟩
      | none =>
          simp only [writablePath, writablePath_ok hwritable, hsec] at hwritable
          cases hwritable

/-- A command is about the section it writes. -/
theorem target_safe (file : Bool) (cmd : Command) :
    Safe (fun sec => cmd.About sec) (cmd.target file) := by
  cases cmd with
  | set key value => exact writablePath_section file key _
  | remove key => exact writablePath_section file key _
  | add sec =>
      rw [Command.target]
      split
      · exact safe_bail _
      · next hne => exact ⟨rfl, hne⟩

/-! ## changes of one entry -/

/-- What a command does to the entry of its section. -/
inductive Change
  | keep
  | insert (x : Item)
  | remove

namespace Change

def on (sec : String) : Change → Table → Table
  | .keep, doc => doc
  | .insert x, doc => doc.insert sec x
  | .remove, doc => doc.remove sec

variable {sec : String} {m s doc doc' : Table}

/-- There are no new keys besides the section. -/
theorem key_on (change : Change) {e : String × Item} (h : e ∈ change.on sec doc) :
    e.1 = sec ∨ e ∈ doc := by
  cases change with
  | keep => exact Or.inr h
  | insert x =>
      obtain rfl | h := Table.mem_insert h
      · exact Or.inl rfl
      · exact Or.inr h
  | remove => exact Or.inr (List.mem_filter.mp h).1

/-- The order of the entries does not matter. -/
theorem on_perm (hperm : doc'.Perm doc) (hnodup : (doc.map Prod.fst).Nodup) (change : Change) :
    (change.on sec doc').Perm (change.on sec doc) := by
  cases change with
  | keep => exact hperm
  | insert x =>
      rw [on, on, Table.insert, Table.insert, Assoc.lookup_perm hperm hnodup]
      split
      · exact hperm.map _
      · exact hperm.append_right _
  | remove => exact hperm.filter _

/-- There is nothing to replace where the key is not there. -/
theorem replace_of_absent (h : doc.lookup sec = none) (x : Item) :
    (doc.map fun e => if e.1 = sec then (sec, x) else e) = doc := by
  have habsent := Table.not_key_of_absent h
  refine (List.map_congr_left ?_).trans (List.map_id doc)
  exact fun e he => if_neg (habsent e he)

/-- Entries in front that are not of the section stay as they are. -/
theorem on_append_right (hm : m.lookup sec = none) (change : Change) (s : Table) :
    change.on sec (m ++ s) = m ++ change.on sec s := by
  cases change with
  | keep => rfl
  | insert x =>
      rw [on, on, Table.insert, Table.insert, List.lookup_append, hm, Option.none_or]
      split
      · rw [List.map_append, replace_of_absent hm]
      · rw [List.append_assoc]
  | remove =>
      have hsame := Table.remove_of_absent hm
      unfold Table.remove at hsame
      rw [on, on, Table.remove, List.filter_append, hsame]
      rfl

/-- A new entry comes behind those of other sections. -/
theorem on_append_left (hs : s.lookup sec = none) (change : Change) (m : Table) :
    (change.on sec (m ++ s)).Perm (change.on sec m ++ s) := by
  cases change with
  | keep => exact List.Perm.refl _
  | insert x =>
      rw [on, on, Table.insert, Table.insert, List.lookup_append, hs, Option.or_none]
      split
      · rw [List.map_append, replace_of_absent hs]
      · rw [List.append_assoc, List.append_assoc]
        exact List.perm_append_comm.append_left m
  | remove =>
      have hsame := Table.remove_of_absent hs
      unfold Table.remove at hsame
      rw [on, on, Table.remove, List.filter_append, hsame]
      exact List.Perm.refl _

end Change

/-! ## what a command looks at -/

/-- A command does to a document what is said about the entry of the section. -/
def Local (sec : String) (x : Option Item) (f : Table → Except EditError Table) : Prop :=
  ∃ change : Except EditError Change, ∀ doc : Table, doc.lookup sec = x →
    f doc = change.map (·.on sec doc)

variable {sec : String} {x : Option Item} {f : Table → Except EditError Table}

/-- Bailing out changes no entry. -/
theorem local_error (e : EditError) (h : ∀ doc : Table, doc.lookup sec = x → f doc = .error e) :
    Local sec x f := ⟨.error e, h⟩

/-- A computation that does not look at the document, and then an insertion. -/
theorem local_insert {α : Type} (r : Except EditError α) (item : α → Item)
    (h : ∀ doc : Table, doc.lookup sec = x →
      f doc = (r >>= fun a => .ok (doc.insert sec (item a)))) : Local sec x f := by
  refine ⟨r.map fun a => .insert (item a), fun doc hx => ?_⟩
  rw [h doc hx]
  cases r <;> rfl

/-- `set` on a table looks at its section only. -/
theorem setInSection_local (rest : List Segment) (v : Value) :
    Local sec x fun doc => setInSection doc sec rest v := by
  simp only [setInSection_eq]
  cases x with
  | none =>
      refine local_insert (setInTable [] rest v) .table fun doc hx => ?_
      rw [hx]
  | some x =>
      cases x with
      | table t =>
          refine local_insert (setInTable t rest v) .table fun doc hx => ?_
          rw [hx]
      | value v =>
          refine local_error (.bail (sec ++ " exists but is not a table")) fun doc hx => ?_
          rw [hx]
      | arrayOfTables ts =>
          refine local_error (.bail (sec ++ " exists but is not a table")) fun doc hx => ?_
          rw [hx]

/-- So does `set` on an array of tables. -/
theorem setInElement_local (i : Nat) (rest : List Segment) (v : Value) :
    Local sec x fun doc => setInElement doc sec i rest v := by
  have hother : ∀ y : Item, y.isArrayOfTables = false →
      Local sec (some y) fun doc => setInElement doc sec i rest v := by
    intro y hy
    refine local_error (.bail (sec ++ " exists but is not an array of tables")) fun doc hx => ?_
    rw [setInElement_eq, hx]
    cases y with
    | arrayOfTables ts => cases hy
    | _ => rfl
  cases x with
  | none =>
      refine local_error (.bail ("index " ++ toString i ++ " out of range for [" ++ sec ++
        "] (length " ++ toString 0 ++ ")")) fun doc hx => ?_
      rw [setInElement_eq, hx]
  | some x =>
      cases x with
      | value v => exact hother _ rfl
      | table t => exact hother _ rfl
      | arrayOfTables ts =>
          cases hi : ts[i]? with
          | none =>
              refine local_error (.bail ("index " ++ toString i ++ " out of range for [" ++ sec ++
                "] (length " ++ toString ts.length ++ ")")) fun doc hx => ?_
              rw [setInElement_eq, hx]
              simp only [hi]
          | some t =>
              refine local_insert (setInTable t rest v) (fun t' => .arrayOfTables (ts.set i t'))
                fun doc hx => ?_
              rw [setInElement_eq, hx]
              simp only [hi]

/-- So does `set` in either case. -/
theorem applySet_local (tail : List Segment) (raw : String) :
    Local sec x fun doc => applySet doc (.field sec :: tail) raw := by
  cases tail with
  | nil => exact setInSection_local [] _
  | cons seg tail =>
      cases seg with
      | field k => exact setInSection_local (.field k :: tail) _
      | index i => exact setInElement_local i tail _

/-- So does `add`. -/
theorem addEntry_local (hsec : sec ≠ "machine") : Local sec x fun doc => addEntry doc sec := by
  simp only [addEntry, if_neg hsec]
  cases hitem : (x.getD (.arrayOfTables [])).asArrayOfTablesMut with
  | some arr =>
      refine local_insert (.ok arr) (fun arr => .arrayOfTables (arr ++ [[]])) fun doc hx => ?_
      rw [hx, hitem]
      rfl
  | none =>
      refine local_error (.bail (sec ++ " exists but is not an array of tables")) fun doc hx => ?_
      rw [hx, hitem]

/-- So does `remove`. -/
theorem removeInDoc_local (tail : List Segment) :
    Local sec x fun doc => removeInDoc doc (.field sec :: tail) := by
  cases tail with
  | nil => exact ⟨.ok .remove, fun _ _ => rfl⟩
  | cons seg tail =>
      cases x with
      | none =>
          refine ⟨.ok .keep, fun doc hx => ?_⟩
          unfold removeInDoc
          simp only [hx]
          rfl
      | some item =>
          refine local_insert (removeInItem item (seg :: tail)) id fun doc hx => ?_
          unfold removeInDoc
          simp only [hx]
          rfl

/-- What a command does is said by what is under its section. -/
theorem Command.apply_local {cmd : Command} (h : cmd.About sec) (file : Bool) (x : Option Item) :
    Local sec x fun doc => cmd.apply file doc := by
  have hpath : ∀ (key refusal : String) (f : List Segment → Table → Except EditError Table),
      (∃ path p, KeyPath.parse key = some path ∧ path.segments = .field sec :: p) →
      (∀ p, Local sec x (f (.field sec :: p))) →
      Local sec x fun doc => writablePath file key refusal >>= fun path => f path.segments doc := by
    rintro key refusal f ⟨path, p, hparse, hp⟩ hlocal
    cases hwritable : writablePath file key refusal with
    | error e => exact local_error e fun _ _ => rfl
    | ok path' =>
        cases hparse.symm.trans (writablePath_ok hwritable)
        simpa only [ok_bind, hp] using hlocal p
  cases cmd with
  | set key value =>
      exact hpath key _ (fun segs doc => applySet doc segs value) h fun p => applySet_local p value
  | add sec' =>
      obtain ⟨rfl, hsec⟩ := h
      exact addEntry_local hsec
  | remove key =>
      exact hpath key _ (fun segs doc => removeInDoc doc segs) h removeInDoc_local

end Zebrafish.ConfigTool
