import Zebrafish.Toml.Reader
import Zebrafish.ConfigTool.RoundTrip

/-!
# Zebrafish.ConfigTool.Load

Loading the two configuration files (`load.rs`).

The files are read as one text, the machine file first.  Each section of the
configuration is read on its own (`sectionAt_eq`), so where that text is the
union of the two documents, each section has the value of the file that
declares it; `load_merges_iff` says when it is.
-/

namespace Zebrafish.ConfigTool

open Toml

/-- `read_optional`: what is in a file, if there is one. -/
def readOptional (file : Option String) : String := file.getD ""

/-- `load_from_paths`, of what is in the two files. -/
def loadFromPaths (R : Reader) (system machine : Option String) : Option Config :=
  let machineText := readOptional machine
  let systemText := readOptional system
  let combined := machineText ++ "\n" ++ systemText
  (R.parse combined).bind fun root => Config.fromToml (.table root)

/-! ## sections -/

/-- The value of a section. -/
def Config.sectionAt (c : Config) (k : String) : Option Value := walkSegments [.field k] c.view

/-- What one section of a file is read as. -/
def normSection (entries : Entries) (k : String) : Option Value :=
  (sectionTys.lookup k).bind fun f => (normField entries (k, f)).join

/-- A section of a configuration is read from its entry alone. -/
theorem Config.sectionAt_eq {entries : Entries} {c : Config}
    (h : Config.fromToml (.table entries) = some c) (k : String) :
    c.sectionAt k = normSection entries k := by
  have hd := of_decide_eq_true sectionTys_ok.1
  have hview : norm Config.ty (.table entries) = some c.view := by
    rw [← Config.view_fromToml, h]
    rfl
  rw [Config.ty_eq, Toml.norm] at hview
  obtain ⟨l, hl, hv⟩ := Option.map_eq_some_iff.mp hview
  have hkeys : (keys l).Nodup := (keys_normFields hl).nodup hd
  have hsection : c.sectionAt k = l.lookup k := by
    rw [Config.sectionAt, ← hv, walkSegments, lookup_sortKeys hkeys]
    cases l.lookup k <;> rfl
  rw [hsection, normSection]
  exact lookup_of_normFields hl hd k

/-- A section of a union is that of the part that has the key. -/
theorem normField_append (m s : Entries) (f : String × Presence × Ty) :
    normField (m ++ s) f = if f.1 ∈ keys m then normField m f else normField s f := by
  have hlookup : (m ++ s).lookup f.1 = if f.1 ∈ keys m then m.lookup f.1 else s.lookup f.1 := by
    rw [List.lookup_append]
    cases hk : m.lookup f.1 with
    | some v =>
        have hmem : f.1 ∈ keys m := List.mem_map_of_mem (f := Prod.fst) (Assoc.mem_of_lookup hk)
        rw [if_pos hmem]
        rfl
    | none =>
        have hnot : f.1 ∉ keys m := Assoc.lookup_eq_none_iff.mp hk
        rw [if_neg hnot]
        rfl
  split
  · next hmem =>
      rw [if_pos hmem] at hlookup
      exact normField_congr hlookup
  · next hmem =>
      rw [if_neg hmem] at hlookup
      exact normField_congr hlookup

/-- In a configuration that is read, each section is. -/
theorem normField_of_fromToml {entries : Entries} {c : Config}
    (h : Config.fromToml (.table entries) = some c) :
    ∀ f ∈ sectionTys, (normField entries f).isSome := by
  have hview : (norm Config.ty (.table entries)).isSome := by
    rw [← Config.view_fromToml, h]
    rfl
  exact normField_isSome hview

/-- The union of two documents that can be read can be read, section by
section. -/
theorem fromToml_append {m s : Entries} {cm cs : Config}
    (hm : Config.fromToml (.table m) = some cm) (hs : Config.fromToml (.table s) = some cs) :
    ∃ c, Config.fromToml (.table (m ++ s)) = some c ∧
      ∀ k, c.sectionAt k = if k ∈ keys m then cm.sectionAt k else cs.sectionAt k := by
  have hall : ∀ f ∈ sectionTys, (normField (m ++ s) f).isSome := by
    intro f hf
    rw [normField_append]
    split
    · exact normField_of_fromToml hm f hf
    · exact normField_of_fromToml hs f hf
  have hsome : (Config.fromToml (.table (m ++ s))).isSome := by
    have hnorm : (norm Config.ty (.table (m ++ s))).isSome := by
      rw [Config.ty_eq, Toml.norm, Option.isSome_map]
      exact normFields_isSome_iff.mpr hall
    rwa [← Config.view_fromToml, Option.isSome_map] at hnorm
  obtain ⟨c, hc⟩ := Option.isSome_iff_exists.mp hsome
  refine ⟨c, hc, ?_⟩
  intro k
  rw [Config.sectionAt_eq hc, Config.sectionAt_eq hm, Config.sectionAt_eq hs]
  unfold normSection
  cases sectionTys.lookup k with
  | none => simp
  | some f =>
      simp only [Option.bind_some, normField_append]
      split <;> rfl

/-! ## loading -/

/-- The two files are merged: the combined document is the union of theirs, and
each section is the one of the file that declares it. -/
structure Merges (R : Reader) (machine system : String) (m s : Entries) : Prop where
  union : R.parse (machine ++ "\n" ++ system) = some (m ++ s)
  loads : ∀ cm cs, Config.fromToml (.table m) = some cm → Config.fromToml (.table s) = some cs →
    ∃ c, loadFromPaths R (some system) (some machine) = some c ∧
      ∀ k, c.sectionAt k = if k ∈ keys m then cm.sectionAt k else cs.sectionAt k

/-- The files are merged exactly when the system file does not start with a
byte-order mark, and does not start with a key where the machine file has a
header. -/
theorem load_merges_iff (R : Reader) {machine system : String} {a b : List Stmt} {m s : Entries}
    (ha : R.statements machine = some a) (hb : R.statements system = some b)
    (hm : document a = some m) (hs : document b = some s) (hd : ∀ k ∈ keys m, k ∉ keys s) :
    Merges R machine system m s ↔
      startsWithMark system = false ∧ (a.all Stmt.isKeyval ∨ startsWithKeyval b = false) := by
  rw [← R.parse_concat_iff ha hb hm hs hd]
  constructor
  · exact Merges.union
  · intro hunion
    refine ⟨hunion, ?_⟩
    intro cm cs hcm hcs
    obtain ⟨c, hc, hsections⟩ := fromToml_append hcm hcs
    refine ⟨c, ?_, hsections⟩
    rw [loadFromPaths, readOptional, readOptional, Option.getD_some, Option.getD_some, hunion,
      Option.bind_some, hc]

/-- A machine file. -/
def machineToml : String := "[machine]\nid = \"a71d0f9a\"\n"

theorem statements_machineToml : lineReader.statements machineToml =
    some [.table [] "machine", .keyval [] "id" (.string "a71d0f9a")] := rfl

theorem load_merges_header :
    Merges lineReader machineToml "[hostname]\nname = \"web1\"\n"
      [("machine", .table [("id", .string "a71d0f9a")])]
      [("hostname", .table [("name", .string "web1")])] := by
  have hb : lineReader.statements "[hostname]\nname = \"web1\"\n" =
      some [.table [] "hostname", .keyval [] "name" (.string "web1")] := rfl
  refine (load_merges_iff lineReader statements_machineToml hb rfl rfl ?_).mpr
    ⟨by decide +kernel, Or.inr rfl⟩
  decide

/-- A host name in a dotted key ends up in the machine section, where nothing
reads it. -/
theorem dotted_hostname_lost :
    lineReader.parse machineToml = some [("machine", .table [("id", .string "a71d0f9a")])] ∧
      lineReader.parse "hostname.name = \"web1\"\n" =
        some [("hostname", .table [("name", .string "web1")])] ∧
      (Config.fromToml (.table [("machine", .table [("id", .string "a71d0f9a")])])).isSome ∧
      (Config.fromToml (.table [("hostname", .table [("name", .string "web1")])])).map
        (fun c => c.hostname.isSome) = some true ∧
      (loadFromPaths lineReader (some "hostname.name = \"web1\"\n") (some machineToml)).map
        (fun c => c.hostname.isSome) = some false := by
  have hb : lineReader.statements "hostname.name = \"web1\"\n" =
      some [.keyval ["hostname"] "name" (.string "web1")] := rfl
  have hall := lineReader.concat statements_machineToml hb (by decide +kernel)
  refine ⟨by rw [Reader.parse, statements_machineToml]; rfl, by rw [Reader.parse, hb]; rfl,
    ?_, ?_, ?_⟩
  · decide +kernel
  · decide +kernel
  · rw [loadFromPaths, readOptional, readOptional, Option.getD_some, Option.getD_some, Reader.parse,
      hall]
    decide +kernel

end Zebrafish.ConfigTool
