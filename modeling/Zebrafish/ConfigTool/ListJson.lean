import Zebrafish.Lib.JsonText
import Zebrafish.ConfigTool.ListToml

/-!
# Zebrafish.ConfigTool.ListJson

`zebrafish-config list --format json` (`list.rs`): the configuration, or one
section, as a JSON value.

`toJson` is what serde makes of a value; a struct and a `toml::Value` write
their members in different orders, so the order is left open.  A path leads
to the same place in both (`jsonAt_toJson`), and so `list_json_get` compares
the text with the answers of `get`.
-/

namespace Zebrafish.ConfigTool

open Toml

abbrev Members := List (List Char × Json.Value)

/-- How a value is written: with `serde_json`, the members of a table in some
order, and a value that no configuration holds in some way. -/
structure Dump where
  writer : Json.Writer
  order : Members → Members
  perm : ∀ ms, (order ms).Perm ms
  other : Value → Json.Value

mutual

def toJson (J : Dump) : Value → Json.Value
  | .string s => .str s.toList
  | .integer i => .word (toString i).toList
  | .boolean b => .bool b
  | .array items => .array (jsonItems J items)
  | .table entries => .object (J.order (jsonEntries J entries))
  | v => J.other v

def jsonItems (J : Dump) : List Value → List Json.Value
  | [] => []
  | v :: items => toJson J v :: jsonItems J items

def jsonEntries (J : Dump) : Entries → Members
  | [] => []
  | (k, v) :: entries => (k.toList, toJson J v) :: jsonEntries J entries

end

/-- `list --format json`, of the whole configuration or of one section; `none`
if there is no such section. -/
def listJson (J : Dump) (cfg : Config) : Option String → Option (List Char)
  | none => some (J.writer.text (toJson J cfg.view) ++ ['\n'])
  | some name =>
      match walkSegments [.field name] cfg.view with
      | some value => some (J.writer.text (toJson J value) ++ ['\n'])
      | none => none

/-! ## paths -/

/-- What is at a path in a JSON value. -/
def jsonAt : List Segment → Json.Value → Option Json.Value
  | [], v => some v
  | .field name :: tail, .object members => (Json.member name.toList members).bind (jsonAt tail)
  | .index i :: tail, .array items => (items[i]?).bind (jsonAt tail)
  | _ :: _, _ => none

/-- The JSON of a list, item by item. -/
theorem jsonItems_eq (J : Dump) (items : List Value) :
    jsonItems J items = items.map (toJson J) := by
  induction items with
  | nil => rfl
  | cons v items ih => rw [jsonItems, ih, List.map_cons]

/-- The JSON of a table, entry by entry. -/
theorem jsonEntries_eq (J : Dump) (entries : Entries) :
    jsonEntries J entries = entries.map fun e => (e.1.toList, toJson J e.2) := by
  induction entries with
  | nil => rfl
  | cons e entries ih =>
      obtain ⟨k, v⟩ := e
      rw [jsonEntries, ih, List.map_cons]

/-- Its members are found under the keys of the table. -/
theorem lookup_jsonEntries (J : Dump) (entries : Entries) (k : String) :
    (entries.map fun e => (e.1.toList, toJson J e.2)).lookup k.toList =
      (entries.lookup k).map (toJson J) := by
  induction entries with
  | nil => rfl
  | cons e entries ih =>
      obtain ⟨k', v⟩ := e
      by_cases hk : k = k'
      · subst hk
        simp
      · have hk' : k.toList ≠ k'.toList := fun h => hk (String.toList_inj.mp h)
        simpa [List.lookup_cons, beq_false_of_ne hk, beq_false_of_ne hk'] using ih

/-- A member of a table that is written in some order. -/
theorem member_order (J : Dump) {entries : Entries} (hd : (keys entries).Nodup) (k : String) :
    Json.member k.toList (J.order (jsonEntries J entries)) =
      (entries.lookup k).map (toJson J) := by
  have hkeys : ((jsonEntries J entries).map Prod.fst).Nodup := by
    have hmap : (jsonEntries J entries).map Prod.fst = (keys entries).map String.toList := by
      simp [jsonEntries_eq, keys]
    rw [hmap]
    exact hd.map fun _ _ => String.toList_inj.mp
  have hperm : (J.order (jsonEntries J entries)).reverse.Perm (jsonEntries J entries) :=
    (List.reverse_perm _).trans (J.perm _)
  rw [Json.member, Assoc.lookup_perm hperm hkeys, jsonEntries_eq, lookup_jsonEntries]

/-- The keys of a struct that is written are distinct, and its members are
written for the types of its fields. -/
theorem shaped_entries {fields : List (String × Presence × Ty)} {entries : Entries}
    (ht : (Ty.table fields).every tidyFields) (h : Shaped (.table fields) (.table entries)) :
    (keys entries).Nodup ∧ ∀ e ∈ entries, ∃ t : Ty, t.every tidyFields ∧ Shaped t e.2 := by
  obtain ⟨l, heq, hl⟩ := h
  cases heq
  simp only [Ty.every, Bool.and_eq_true] at ht
  have hdistinct := distinctFields_of_tidy fields ht.1
  refine ⟨nodup_keys_sortKeys.mpr (hl.keys_sublist.nodup (of_decide_eq_true hdistinct)), ?_⟩
  rintro ⟨k, v⟩ he
  obtain ⟨p, t, hf, hs⟩ := hl.mem (mem_sortKeys.mp he)
  exact ⟨t, every_of_mem ht.2 hf, hs⟩

/-- A path leads to the same place. -/
theorem jsonAt_toJson (J : Dump) {t : Ty} {v : Value} (ht : t.every tidyFields) (h : Shaped t v)
    (path : List Segment) :
    jsonAt path (toJson J v) = (walkSegments path v).map (toJson J) := by
  induction path generalizing t v with
  | nil => rfl
  | cons seg path ih =>
      cases t with
      | string =>
          obtain ⟨s, rfl⟩ := h
          cases seg <;> rfl
      | boolean =>
          obtain ⟨b, rfl⟩ := h
          cases seg <;> cases b <;> rfl
      | unsigned bits =>
          obtain ⟨n, rfl, _⟩ := h
          cases seg <;> rfl
      | array t =>
          obtain ⟨items, rfl, hitems⟩ := h
          cases seg with
          | field k => rfl
          | index i =>
              rw [toJson, jsonAt, walkSegments, jsonItems_eq, List.getElem?_map]
              cases hi : items[i]? with
              | none => rfl
              | some v => exact ih (t := t) ht (hitems v (List.mem_of_getElem? hi))
      | table fields =>
          have hs := h
          obtain ⟨l, rfl, -⟩ := h
          cases seg with
          | index i => rfl
          | field k =>
              obtain ⟨hd, hmembers⟩ := shaped_entries ht hs
              rw [toJson, jsonAt, walkSegments, member_order J hd]
              cases hk : (sortKeys l).lookup k with
              | none => rfl
              | some v =>
                  obtain ⟨t, ht, hv⟩ := hmembers _ (Assoc.mem_of_lookup hk)
                  exact ih ht hv

/-- What is written for a type can be written as JSON. -/
theorem valid_toJson (J : Dump) {t : Ty} {v : Value} (ht : t.every tidyFields) (h : Shaped t v) :
    (toJson J v).Valid := by
  induction v using Value.members_induction generalizing t with
  | string s => trivial
  | boolean b => exact Json.valid_bool b
  | integer i =>
      have hnat : ∃ n : Nat, i = n := by
        cases t <;> simp only [Shaped, reduceCtorEq, exists_false, false_and, Value.integer.injEq]
          at h
        obtain ⟨n, rfl, _⟩ := h
        exact ⟨n, rfl⟩
      obtain ⟨n, rfl⟩ := hnat
      exact Json.valid_nat n
  | float bits => cases t <;> simp [Shaped] at h
  | datetime text => cases t <;> simp [Shaped] at h
  | array items ih =>
      cases t with
      | array t =>
          obtain ⟨items', heq, hitems⟩ := h
          cases heq
          refine Json.validItems_iff.mpr fun w hw => ?_
          rw [jsonItems_eq] at hw
          obtain ⟨x, hx, rfl⟩ := List.mem_map.mp hw
          exact ih x hx (t := t) ht (hitems x hx)
      | _ => simp [Shaped] at h
  | table entries ih =>
      cases t with
      | table fields =>
          obtain ⟨-, hmembers⟩ := shaped_entries ht h
          refine Json.validMembers_iff.mpr fun m hm => ?_
          rw [(J.perm _).mem_iff, jsonEntries_eq] at hm
          obtain ⟨e, he, rfl⟩ := List.mem_map.mp hm
          obtain ⟨t, ht, hs⟩ := hmembers e he
          exact ih e he ht hs
      | _ => simp [Shaped] at h

/-! ## the text and the answers of `get` -/

/-- The characters of a string, and of a number or literal. -/
def scalarText : Json.Value → Option (List Char)
  | .str s => some s
  | .word w => some w
  | _ => none

/-- A scalar is written with the characters `get` prints. -/
theorem printed_of_scalarText (J : Dump) (D : Display) {t : Ty} {v : Value} (h : Shaped t v)
    {text : List Char} (htext : scalarText (toJson J v) = some text) :
    printed D v = String.ofList text := by
  cases v with
  | string s =>
      cases htext
      simp [printed]
  | integer i =>
      cases htext
      simp [printed]
  | boolean b =>
      cases b <;> cases htext <;> rfl
  | float bits | datetime text => cases t <;> simp [Shaped] at h
  | array items | table entries => cases htext

/-- The value a listing is of. -/
def listedValue (cfg : Config) : Option String → Option Value
  | none => some cfg.view
  | some name => walkSegments [.field name] cfg.view

/-- What is printed is the JSON of what is listed, and a newline. -/
theorem listJson_eq (J : Dump) (cfg : Config) (name? : Option String) :
    listJson J cfg name? =
      (listedValue cfg name?).map fun v => J.writer.text (toJson J v) ++ ['\n'] := by
  cases name? with
  | none => rfl
  | some name =>
      rw [listJson, listedValue]
      cases walkSegments [.field name] cfg.view <;> rfl

/-- What is listed has a type. -/
theorem shaped_listedValue {cfg : Config} {name? : Option String} {v : Value}
    (h : listedValue cfg name? = some v) : ∃ t : Ty, t.every tidyFields ∧ Shaped t v := by
  cases name? with
  | none =>
      cases h
      exact ⟨_, Config.tidy_ty, cfg.shaped_view⟩
  | some name =>
      obtain ⟨t, hat, hs⟩ :=
        shaped_walk distinctFields_of_tidy Config.tidy_ty cfg.shaped_view h
      exact ⟨t, every_typeAt Config.tidy_ty hat, hs⟩

/-- A key of the section goes on in it. -/
theorem lookup_listedValue {cfg : Config} {name? : Option String} {key : KeyPath}
    {path : List Segment} (hkey : key.segments = (name?.map Segment.field).toList ++ path) :
    key.lookup cfg = (listedValue cfg name?).bind (walkSegments path) := by
  rw [KeyPath.lookup, hkey]
  cases name? with
  | none => rfl
  | some name =>
      rw [listedValue]
      cases cfg.view with
      | table entries =>
          cases hname : entries.lookup name <;> simp [walkSegments, hname]
      | _ => rfl

/-- What `get` prints without options. -/
theorem getKey_plain (D : Display) (cfg : Config) (key : KeyPath) (k : String) :
    getKey D cfg key ⟨k, none, false⟩ =
      .ok (match key.lookup cfg with
        | none => ⟨"", 1⟩
        | some v => ⟨printed D v, 0⟩) := by
  rw [getKey]
  cases key.lookup cfg <;> rfl

/-- **`list` and `get`.**  What `list --format json` prints is JSON of one value;
a key of the configuration, or of the section, leads to something in that
value just if `get` finds it, and where it leads to a string, a number or a
literal, `get` prints its characters.  Where there is no section to list, `get`
finds none of its keys. -/
theorem list_json_get (J : Dump) (D : Display) (cfg : Config) (name? : Option String) :
    (listJson J cfg name? = none → ∀ (key : KeyPath) (path : List Segment) (k : String),
      key.segments = (name?.map Segment.field).toList ++ path →
      getKey D cfg key ⟨k, none, false⟩ = .ok ⟨"", 1⟩) ∧
    ∀ text, listJson J cfg name? = some text → ∃ j, (∀ j', Json.Decodes text j' ↔ j' = j) ∧
      ∀ (key : KeyPath) (path : List Segment) (k : String),
        key.segments = (name?.map Segment.field).toList ++ path →
        jsonAt path j = (key.lookup cfg).map (toJson J) ∧
        (jsonAt path j = none ↔ getKey D cfg key ⟨k, none, false⟩ = .ok ⟨"", 1⟩) ∧
        ∀ t, (jsonAt path j).bind scalarText = some t →
          getKey D cfg key ⟨k, none, false⟩ = .ok ⟨String.ofList t, 0⟩ := by
  rw [listJson_eq]
  constructor
  · intro hnone key path k hkey
    have hlisted : listedValue cfg name? = none := Option.map_eq_none_iff.mp hnone
    rw [getKey_plain, lookup_listedValue hkey, hlisted]
    rfl
  · intro text htext
    obtain ⟨v, hv, rfl⟩ := Option.map_eq_some_iff.mp htext
    obtain ⟨t, ht, hs⟩ := shaped_listedValue hv
    -- the newline behind the value is blank
    have hdecodes : Json.Decodes (J.writer.text (toJson J v) ++ ['\n']) (toJson J v) :=
      Json.lex_eq_some_iff.mpr
        ((Json.lex_eq_some_iff.mp (J.writer.decodes _ (valid_toJson J ht hs))).blanks_right
          (by simp [Json.isBlank]))
    refine ⟨toJson J v, fun j' => ⟨fun h => h.unique hdecodes, fun h => h ▸ hdecodes⟩, ?_⟩
    intro key path k hkey
    have hat : jsonAt path (toJson J v) = (key.lookup cfg).map (toJson J) := by
      rw [jsonAt_toJson J ht hs, lookup_listedValue hkey, hv, Option.bind_some]
    refine ⟨hat, ?_, ?_⟩
    · rw [hat, getKey_plain]
      cases key.lookup cfg <;> simp
    · intro text htext
      rw [hat] at htext
      obtain ⟨j, hj, hscalar⟩ := Option.bind_eq_some_iff.mp htext
      obtain ⟨w, hw, rfl⟩ := Option.map_eq_some_iff.mp hj
      rw [getKey_plain, hw]
      obtain ⟨t', -, hs'⟩ :=
        shaped_walk distinctFields_of_tidy Config.tidy_ty cfg.shaped_view hw
      simp only [printed_of_scalarText J D hs' hscalar]

/-- `serde_json` in its pretty format, with the members as they come. -/
def prettyDump : Dump where
  writer := Json.prettyWriter
  order := id
  perm ms := .refl ms
  other _ := .word ['n', 'u', 'l', 'l']

theorem list_json_get_hostname :
    listJson prettyDump namedHost (some "hostname") =
        some "\x7b\n  \"name\": \"web1\"\n\x7d\n".toList ∧
      listJson prettyDump namedHost (some "ssh") = none ∧
      (∃ j, Json.Decodes "\x7b\n  \"name\": \"web1\"\n\x7d\n".toList j ∧
        jsonAt [.field "name"] j = some (.str ['w', 'e', 'b', '1']) ∧
        jsonAt [.field "port"] j = none ∧
        getKey plainDisplay namedHost ⟨[.field "hostname", .field "port"], by simp⟩
          ⟨"hostname.port", none, false⟩ = .ok ⟨"", 1⟩) ∧
      getKey plainDisplay namedHost ⟨[.field "ssh", .field "port"], by simp⟩
        ⟨"ssh.port", none, false⟩ = .ok ⟨"", 1⟩ := by
  have hlisted : listJson prettyDump namedHost (some "hostname") =
      some "\x7b\n  \"name\": \"web1\"\n\x7d\n".toList := by decide +kernel
  have habsent : listJson prettyDump namedHost (some "ssh") = none := by decide +kernel
  refine ⟨hlisted, habsent, ?_, ?_⟩
  · obtain ⟨j, hj, hkeys⟩ :=
      (list_json_get prettyDump plainDisplay namedHost (some "hostname")).2 _ hlisted
    obtain ⟨hname, -, -⟩ := hkeys ⟨[.field "hostname", .field "name"], by simp⟩ [.field "name"]
      "hostname.name" rfl
    obtain ⟨hport, hnone, -⟩ := hkeys ⟨[.field "hostname", .field "port"], by simp⟩
      [.field "port"] "hostname.port" rfl
    have hport : jsonAt [.field "port"] j = none := by rw [hport]; rfl
    exact ⟨j, (hj j).mpr rfl, by rw [hname]; rfl, hport, hnone.mp hport⟩
  · exact (list_json_get prettyDump plainDisplay namedHost (some "ssh")).1 habsent _
      [.field "port"] _ rfl

end Zebrafish.ConfigTool
