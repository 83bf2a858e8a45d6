import Zebrafish.ConfigTool.Path

/-!
# Zebrafish.ConfigTool.Document

The writing commands `set`, `add` and `remove` (`set.rs`, `add.rs`,
`remove.rs`) on the tree of a TOML document.

A document is a table of items: values, tables and arrays of tables.  Each
command walks it in its own way and bails out where it does not know how to go
on; the places where the code would panic are outcomes too.  A command that
succeeds writes the document, and the next one reads it back (`reload`).
-/

namespace Zebrafish.ConfigTool

open Toml Rust

/-! ## documents -/

/-- `toml_edit::Item`; a table value is an inline table. -/
inductive Item
  | value (v : Value)
  | table (entries : List (String × Item))
  | arrayOfTables (tables : List (List (String × Item)))

/-- `toml_edit::Table`, and a whole document. -/
abbrev Table := List (String × Item)

namespace Table

/-- Replace the item under a key, or add it at the end. -/
def insert (t : Table) (k : String) (x : Item) : Table :=
  if (t.lookup k).isSome then t.map fun e => if e.1 = k then (k, x) else e
  else t ++ [(k, x)]

def remove (t : Table) (k : String) : Table := t.filter fun e => e.1 ≠ k

def containsKey (t : Table) (k : String) : Bool := (t.lookup k).isSome

end Table

def Item.isTable : Item → Bool
  | .table _ => true
  | _ => false

def Item.asTableMut : Item → Option Table
  | .table t => some t
  | _ => none

def Item.isArrayOfTables : Item → Bool
  | .arrayOfTables _ => true
  | _ => false

def Item.asArrayOfTablesMut : Item → Option (List Table)
  | .arrayOfTables ts => some ts
  | _ => none

def Item.asArrayMut : Item → Option (List Value)
  | .value (.array items) => some items
  | _ => none

/-- Why a command did not succeed. -/
inductive EditError
  | bail (message : String)
  | panic
deriving DecidableEq

/-- `Option::unwrap`. -/
def unwrapped {α : Type} : Option α → Except EditError α
  | some a => .ok a
  | none => .error .panic

/-- `Vec::remove`, which panics outside of the vector. -/
def removeAt {α : Type} (l : List α) (i : Nat) : Except EditError (List α) :=
  if i < l.length then .ok (l.eraseIdx i) else .error .panic

/-! ## set -/

/-- The type of a value is taken from its text. -/
def parseValue (raw : String) : Value :=
  match parseBool raw with
  | some b => .boolean b
  | none =>
      match parseI64 raw with
      | some i => .integer i
      | none =>
          match parseF64 raw with
          | some f => .float f
          | none => .string raw

def ensureTable (doc : Table) (sec : String) : Except EditError Table :=
  if !doc.containsKey sec then .ok (doc.insert sec (.table []))
  else do
    let item ← unwrapped (doc.lookup sec)
    if !item.isTable then .error (.bail (sec ++ " exists but is not a table"))
    else .ok doc

def ensureArrayOfTables (doc : Table) (sec : String) : Except EditError Table :=
  if !doc.containsKey sec then .ok (doc.insert sec (.arrayOfTables []))
  else do
    let item ← unwrapped (doc.lookup sec)
    if !item.isArrayOfTables then .error (.bail (sec ++ " exists but is not an array of tables"))
    else .ok doc

def setInTable : Table → List Segment → Value → Except EditError Table
  | _, [], _ => .error (.bail "internal: empty segment list")
  | t, [.field name], parsed => .ok (t.insert name (.value parsed))
  | _, [.index _], _ => .error (.bail "cannot assign a value to an array index")
  | t, .field name :: seg :: tail, parsed =>
      if t.containsKey name then do
        let existing ← unwrapped (t.lookup name)
        if existing.isTable then do
          let next ← unwrapped existing.asTableMut
          let next ← setInTable next (seg :: tail) parsed
          .ok (t.insert name (.table next))
        else .error (.bail (name ++ " is not a table"))
      else do
        let next ← setInTable [] (seg :: tail) parsed
        .ok (t.insert name (.table next))
  | _, .index _ :: _ :: _, _ =>
      .error (.bail "nested array indexing is not supported by `set`")

/-- `apply_set` where the section is a plain table. -/
def setInSection (doc : Table) (sec : String) (rest : List Segment) (parsed : Value) :
    Except EditError Table := do
  let doc ← ensureTable doc sec
  let item ← unwrapped (doc.lookup sec)
  let target ← unwrapped item.asTableMut
  let target ← setInTable target rest parsed
  .ok (doc.insert sec (.table target))

/-- `apply_set` where the section is an array of tables. -/
def setInElement (doc : Table) (sec : String) (i : Nat) (rest : List Segment) (parsed : Value) :
    Except EditError Table := do
  let doc ← ensureArrayOfTables doc sec
  let item ← unwrapped (doc.lookup sec)
  let arr ← unwrapped item.asArrayOfTablesMut
  if arr.length ≤ i then
    .error (.bail ("index " ++ toString i ++ " out of range for [" ++ sec ++ "] (length " ++
      toString arr.length ++ ")"))
  else do
    let target ← unwrapped arr[i]?
    let target ← setInTable target rest parsed
    .ok (doc.insert sec (.arrayOfTables (arr.set i target)))

/-- Whether the section is one or the other is taken from the second segment. -/
def applySet (doc : Table) (segments : List Segment) (raw : String) : Except EditError Table :=
  match segments with
  | [] => .error (.bail "empty key path")
  | .index _ :: _ => .error (.bail "key path must start with a section name")
  | .field sec :: .index i :: rest => setInElement doc sec i rest (parseValue raw)
  | .field sec :: tail => setInSection doc sec tail (parseValue raw)

/-! ## add -/

def addEntry (doc : Table) (sec : String) : Except EditError Table :=
  if sec = "machine" then
    .error (.bail "cannot `add` to [machine]; it is a single-value section")
  else
    match ((doc.lookup sec).getD (.arrayOfTables [])).asArrayOfTablesMut with
    | some arr => .ok (doc.insert sec (.arrayOfTables (arr ++ [[]])))
    | none => .error (.bail (sec ++ " exists but is not an array of tables"))

/-! ## remove -/

def removeInItem : Item → List Segment → Except EditError Item
  | _, [] => .error (.bail "internal: empty segment list")
  | item, [.field name] =>
      match item.asTableMut with
      | some t => .ok (.table (t.remove name))
      | none => .ok item
  | item, [.index i] =>
      match item.asArrayOfTablesMut with
      | some arr =>
          if i < arr.length then do
            let arr ← removeAt arr i
            .ok (.arrayOfTables arr)
          else .ok item
      | none =>
          match item.asArrayMut with
          | some arr =>
              if i < arr.length then do
                let arr ← removeAt arr i
                .ok (.value (.array arr))
              else .ok item
          | none => .ok item
  | item, .field name :: seg :: tail =>
      match item with
      | .table t =>
          match t.lookup name with
          | some next => do
              let next ← removeInItem next (seg :: tail)
              .ok (.table (Table.insert t name next))
          | none => .ok item
      | _ => .ok item
  | _, .index _ :: _ :: _ =>
      .error (.bail "nested indexing into arrays is not supported by `remove`")

def removeInDoc (doc : Table) (segments : List Segment) : Except EditError Table :=
  match segments with
  | [] => .error (.bail "empty key path")
  | .index _ :: _ => .error (.bail "key path must start with a section name")
  | [.field sec] => .ok (doc.remove sec)
  | .field sec :: tail =>
      match doc.lookup sec with
      | none => .ok doc
      | some item => do
          let item ← removeInItem item tail
          .ok (doc.insert sec item)

/-! ## commands -/

inductive Command
  | set (key value : String)
  | add (sec : String)
  | remove (key : String)

/-- The path of a key whose section may be written; `[machine]` may not be with
`--file`. -/
def writablePath (file : Bool) (key : String) (refusal : String) : Except EditError KeyPath :=
  match KeyPath.parse key with
  | none => .error (.bail ("invalid key path: " ++ key))
  | some path =>
      match path.section? with
      | none => .error (.bail "key path must start with a section name")
      | some sec =>
          if sec = "machine" && file then .error (.bail refusal)
          else .ok path

/-- What a command makes of the document it read; `file` says whether the file
was given with `--file`. -/
def Command.apply (file : Bool) (doc : Table) : Command → Except EditError Table
  | .set key value => do
      let path ← writablePath file key
        "`--file` cannot be used to write [machine]; it is always on the EFI partition"
      applySet doc path.segments value
  | .add sec => addEntry doc sec
  | .remove key => do
      let path ← writablePath file key
        "`--file` cannot be used to remove from [machine]; it is always on the EFI partition"
      removeInDoc doc path.segments

mutual

/-- An item as it is read back after it was written: an empty array of tables
is not there any more. -/
def Item.reload : Item → Item
  | .value v => .value v
  | .table t => .table (reloadEntries t)
  | .arrayOfTables ts => .arrayOfTables (reloadTables ts)

def reloadEntries : List (String × Item) → List (String × Item)
  | [] => []
  | (_, .arrayOfTables []) :: t => reloadEntries t
  | (k, x) :: t => (k, x.reload) :: reloadEntries t

def reloadTables : List (List (String × Item)) → List (List (String × Item))
  | [] => []
  | t :: ts => reloadEntries t :: reloadTables ts

end

/-- The file after a command: written if it succeeded, untouched if it bailed
out. -/
def Command.run (file : Bool) (doc : Table) (cmd : Command) : Except EditError Table :=
  match cmd.apply file doc with
  | .ok doc => .ok (reloadEntries doc)
  | .error (.bail _) => .ok doc
  | .error .panic => .error .panic

/-- The file after a sequence of commands, each with or without `--file`. -/
def runAll : Table → List (Bool × Command) → Except EditError Table
  | doc, [] => .ok doc
  | doc, (file, cmd) :: cmds => do
      let doc ← cmd.run file doc
      runAll doc cmds

/-! ## the tree -/

mutual

/-- The tree of maps and lists a document is about. -/
def Item.toValue : Item → Value
  | .value v => v
  | .table t => .table (entriesToValue t)
  | .arrayOfTables ts => .array (tablesToValue ts)

def entriesToValue : List (String × Item) → Entries
  | [] => []
  | (k, x) :: t => (k, x.toValue) :: entriesToValue t

def tablesToValue : List (List (String × Item)) → List Value
  | [] => []
  | t :: ts => .table (entriesToValue t) :: tablesToValue ts

end

/-- The tree of a document. -/
def tree (doc : Table) : Value := .table (entriesToValue doc)

end Zebrafish.ConfigTool
