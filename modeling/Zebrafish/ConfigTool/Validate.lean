import Zebrafish.ConfigTool.Load

/-!
# Zebrafish.ConfigTool.Validate

`zebrafish-config validate` (`validate.rs`).

Both files together, the machine file alone and the system file alone: three
ways to load, and all of them ask for a machine id.  The system file has none
where the files are laid out as documented, so that `validate --system` refuses
every such file (`validate_parts_iff`).
-/

namespace Zebrafish.ConfigTool

open Toml Rust

inductive ValidateError
  | unreadable
  | bail (message : String)

structure ValidateArgs where
  machine : Bool
  system : Bool

/-- `Config::from_toml` and `toml::from_str`. -/
def configOf (R : Reader) (text : String) : Option Config :=
  (R.parse text).bind fun root => Config.fromToml (.table root)

/-- What `?` makes of what cannot be read. -/
def orUnreadable {α : Type} : Option α → Except ValidateError α
  | some a => .ok a
  | none => .error .unreadable

def validateRequired (cfg : Config) : Except ValidateError Unit :=
  match cfg.machine with
  | none => .error (.bail "[machine] section is required (lives on the EFI partition)")
  | some m => if m.id.isEmpty then .error (.bail "[machine].id is required") else .ok ()

/-- `validate`, of what is in the files; `file` is what is in the one given with
`--file`. -/
def validate (R : Reader) (file : Option (Option String)) (args : ValidateArgs)
    (system machine : Option String) : Except ValidateError Unit :=
  match file with
  | some text => do
      let text ← orUnreadable text
      let cfg ← orUnreadable (configOf R text)
      validateRequired cfg
  | none =>
      if args.machine then do
        let cfg ← orUnreadable (loadFromPaths R none machine)
        match cfg.machine with
        | none =>
            .error (.bail "EFI-resident zebrafish.toml must contain a [machine] section")
        | some m =>
            if m.id.isEmpty then
              .error (.bail "[machine].id is required in the EFI-resident zebrafish.toml")
            else .ok ()
      else if args.system then do
        let text := system.getD ""
        let cfg ← orUnreadable (configOf R text)
        validateRequired cfg
      else do
        let cfg ← orUnreadable (loadFromPaths R system machine)
        validateRequired cfg

def bothFiles : ValidateArgs := ⟨false, false⟩

def onlyMachine : ValidateArgs := ⟨true, false⟩

def onlySystem : ValidateArgs := ⟨false, true⟩

/-! ## reading a union -/

/-- Every section may be left out. -/
theorem absent_section : ∀ f ∈ sectionTys, (f.2.1.absent).isSome := by
  have hall : sectionTys.all (fun f => (f.2.1.absent).isSome) = true := by decide +kernel
  simpa using hall

/-- A configuration is read if each section is. -/
theorem fromToml_isSome_iff {entries : Entries} :
    (Config.fromToml (.table entries)).isSome ↔
      ∀ f ∈ sectionTys, (normField entries f).isSome := by
  rw [← normFields_isSome_iff, ← Option.isSome_map (f := Config.view), Config.view_fromToml,
    Config.ty_eq, Toml.norm, Option.isSome_map]

/-- A section that is not there can be read. -/
theorem normField_absent {entries : Entries} {f : String × Presence × Ty} (hf : f ∈ sectionTys)
    (h : f.1 ∉ keys entries) : (normField entries f).isSome := by
  rw [normField, Assoc.lookup_eq_none_iff.mpr h]
  exact absent_section f hf

/-- The union of two documents about different keys is read if both are. -/
theorem fromToml_append_iff {m s : Entries} (hd : ∀ k ∈ keys m, k ∉ keys s) :
    (Config.fromToml (.table (m ++ s))).isSome ↔
      (Config.fromToml (.table m)).isSome ∧ (Config.fromToml (.table s)).isSome := by
  simp only [fromToml_isSome_iff, normField_append]
  constructor
  · intro h
    constructor
    · intro f hf
      by_cases hm : f.1 ∈ keys m
      · simpa [hm] using h f hf
      · exact normField_absent hf hm
    · intro f hf
      by_cases hm : f.1 ∈ keys m
      · exact normField_absent hf (hd f.1 hm)
      · simpa [hm] using h f hf
  · rintro ⟨hm, hs⟩ f hf
    split
    · exact hm f hf
    · exact hs f hf

/-- The first field of a struct. -/
theorem de_optional {β γ : Type} {k : String} {c : Codec β} {fs : Fields γ} {entries : Entries}
    {a : Option β × γ} (h : (Fields.optional k c fs).de (.byKey entries) = some a) :
    (match entries.lookup k with
      | some v => (c.de v).map some
      | none => some none) = some a.1 := by
  obtain ⟨⟨b, s⟩, hb, h⟩ := Option.bind_eq_some_iff.mp h
  obtain ⟨rest, _, h⟩ := Option.bind_eq_some_iff.mp h
  cases h
  simp only [Source.field, Source.next] at hb
  cases hk : entries.lookup k with
  | none =>
      simp only [hk, Option.map_some, Option.some.injEq, Prod.mk.injEq] at hb
      rw [hb.1]
  | some v =>
      simp only [hk] at hb
      obtain ⟨x, hx, heq⟩ := Option.map_eq_some_iff.mp hb
      cases heq
      exact hx

/-- The machine section of a file. -/
theorem machine_fromToml {entries : Entries} {c : Config}
    (h : Config.fromToml (.table entries) = some c) :
    (match entries.lookup "machine" with
      | some v => (Machine.codec.de v).map some
      | none => some none) = some c.machine := by
  simp only [Config.fromToml, Config.codec, Codec.struct, Value.source, Option.bind_some] at h
  obtain ⟨a, ha, rfl⟩ := Option.map_eq_some_iff.mp h
  exact de_optional ha

/-- The machine section is read from its entry alone. -/
theorem machine_congr {entries entries' : Entries} {c c' : Config}
    (h : Config.fromToml (.table entries) = some c)
    (h' : Config.fromToml (.table entries') = some c')
    (hlookup : entries.lookup "machine" = entries'.lookup "machine") : c.machine = c'.machine := by
  have hm := machine_fromToml h
  rw [hlookup, machine_fromToml h'] at hm
  exact (Option.some.inj hm).symm

/-! ## the documented layout -/

/-- The machine file is about the machine, the system file about other sections,
under headers. -/
structure Layout (a b : List Stmt) : Prop where
  machine : ∀ k ∈ topKeys [] a, k = "machine"
  system : ∀ k ∈ topKeys [] b, k ≠ "machine"
  headers : startsWithKeyval b = false

/-- A file is a configuration with a machine id. -/
def HasId (R : Reader) (text : String) : Prop :=
  ∃ c m, configOf R text = some c ∧ c.machine = some m ∧ m.id.isEmpty = false

/-- What `validate` requires is an id. -/
theorem validateRequired_ok_iff (c : Config) :
    validateRequired c = .ok () ↔ ∃ m, c.machine = some m ∧ m.id.isEmpty = false := by
  unfold validateRequired
  cases c.machine with
  | none => simp
  | some m => simp

/-- A file that cannot be read is an error. -/
theorem orUnreadable_ok_iff {α : Type} {x : Option α} {a : α} :
    orUnreadable x = .ok a ↔ x = some a := by
  cases x <;> simp [orUnreadable]

/-- `load` reads both files as one text. -/
theorem loadFromPaths_eq (R : Reader) (system machine : Option String) :
    loadFromPaths R system machine =
      configOf R (readOptional machine ++ "\n" ++ readOptional system) := rfl

variable {R : Reader} {system machine : Option String} {a b : List Stmt}

/-- The keys of a file are the first ones of its statements. -/
theorem keys_parse {text : String} {stmts : List Stmt} {entries : Entries}
    (hstmts : R.statements text = some stmts) (h : R.parse text = some entries) {k : String} :
    k ∈ keys entries ↔ k ∈ topKeys [] stmts := by
  rw [Reader.parse, hstmts, Option.bind_some, document] at h
  obtain ⟨t, ht, rfl⟩ := Option.map_eq_some_iff.mp h
  rw [keys_nodesToValue, mem_keys_run_iff ht]
  simp

/-- The two files have no section in common. -/
theorem Layout.disjoint (h : Layout a b) : ∀ k ∈ topKeys [] a, k ∉ topKeys [] b :=
  fun k hk hmem => h.system k hmem (h.machine k hk)

/-- Loading both files is reading each of them, unless a mark is in between. -/
theorem configOf_union (ha : R.statements (readOptional machine) = some a)
    (hb : R.statements (readOptional system) = some b) (hlayout : Layout a b) :
    (∃ c, loadFromPaths R system machine = some c ∧ validateRequired c = .ok ()) ↔
      HasId R (readOptional machine) ∧ (configOf R (readOptional system)).isSome ∧
        startsWithMark (readOptional system) = false := by
  rw [loadFromPaths_eq, configOf, configOf, HasId, configOf,
    R.parse_concat_eq ha hb hlayout.disjoint hlayout.headers]
  cases hmark : startsWithMark (readOptional system) with
  | true => simp
  | false =>
      cases hm : R.parse (readOptional machine) with
      | none => simp
      | some m =>
          cases hs : R.parse (readOptional system) with
          | none => simp
          | some s =>
              have hd : ∀ k ∈ keys m, k ∉ keys s := by
                intro k hk
                rw [keys_parse ha hm] at hk
                rw [keys_parse hb hs]
                exact hlayout.disjoint k hk
              have hnone : "machine" ∉ keys s := by
                rw [keys_parse hb hs]
                exact fun hmem => hlayout.system _ hmem rfl
              have hlookup : (m ++ s).lookup "machine" = m.lookup "machine" := by
                rw [List.lookup_append, Assoc.lookup_eq_none_iff.mpr hnone, Option.or_none]
              simp only [Bool.false_eq_true, if_false, Option.bind_some, Option.map_some,
                validateRequired_ok_iff, and_true]
              constructor
              · rintro ⟨c, hc, mc, hmc, hid⟩
                obtain ⟨hmsome, hssome⟩ := (fromToml_append_iff hd).mp (by rw [hc]; rfl)
                obtain ⟨cm, hcm⟩ := Option.isSome_iff_exists.mp hmsome
                refine ⟨⟨cm, mc, hcm, ?_, hid⟩, hssome⟩
                rw [← hmc, machine_congr hc hcm hlookup]
              · rintro ⟨⟨cm, mc, hcm, hmc, hid⟩, hssome⟩
                obtain ⟨c, hc⟩ := Option.isSome_iff_exists.mp
                  ((fromToml_append_iff hd).mpr ⟨by rw [hcm]; rfl, hssome⟩)
                refine ⟨c, hc, mc, ?_, hid⟩
                rw [← hmc, machine_congr hc hcm hlookup]

/-- `validate` of both files. -/
theorem validate_both_iff (ha : R.statements (readOptional machine) = some a)
    (hb : R.statements (readOptional system) = some b) (hlayout : Layout a b) :
    validate R none bothFiles system machine = .ok () ↔
      HasId R (readOptional machine) ∧ (configOf R (readOptional system)).isSome ∧
        startsWithMark (readOptional system) = false := by
  rw [← configOf_union ha hb hlayout]
  simp [validate, bothFiles, bind_ok_iff, orUnreadable_ok_iff]

/-- `validate --system` refuses every system file. -/
theorem validate_system_fails (hb : R.statements (readOptional system) = some b)
    (hlayout : Layout a b) : validate R none onlySystem system machine ≠ .ok () := by
  intro hok
  simp only [validate, onlySystem, Bool.false_eq_true, if_false, if_true, bind_ok_iff,
    orUnreadable_ok_iff, validateRequired_ok_iff] at hok
  obtain ⟨c, hc, m, hm, _⟩ := hok
  obtain ⟨s, hs, hc⟩ := Option.bind_eq_some_iff.mp hc
  have hnone : "machine" ∉ keys s := by
    rw [keys_parse hb hs]
    exact fun hmem => hlayout.system _ hmem rfl
  have hmachine := machine_fromToml hc
  rw [Assoc.lookup_eq_none_iff.mpr hnone, hm] at hmachine
  cases hmachine

/-- What is asked of the three ways to validate: both files together are accepted
as the parts are, and all is accepted where there is an id and the system file
matches the schema. -/
structure PartsAgree (R : Reader) (system machine : Option String) : Prop where
  agree : validate R none bothFiles system machine = .ok () ↔
    validate R none onlyMachine system machine = .ok () ∧
      validate R none onlySystem system machine = .ok ()
  accept : HasId R (readOptional machine) → (configOf R (readOptional system)).isSome →
    validate R none bothFiles system machine = .ok () ∧
      validate R none onlyMachine system machine = .ok () ∧
      validate R none onlySystem system machine = .ok ()

/-- **Validating the parts.**  For files that are laid out as documented, the
three ways to validate agree unless the machine file has an id and the system
file matches the schema. -/
theorem validate_parts_iff (ha : R.statements (readOptional machine) = some a)
    (hb : R.statements (readOptional system) = some b) (hlayout : Layout a b) :
    PartsAgree R system machine ↔
      ¬ (HasId R (readOptional machine) ∧ (configOf R (readOptional system)).isSome) := by
  have hsystem : validate R none onlySystem system machine ≠ .ok () :=
    validate_system_fails hb hlayout
  constructor
  · rintro hparts ⟨hid, hsome⟩
    exact hsystem (hparts.accept hid hsome).2.2
  · intro hbad
    refine ⟨⟨?_, fun hparts => absurd hparts.2 hsystem⟩,
      fun hid hsome => absurd ⟨hid, hsome⟩ hbad⟩
    rw [validate_both_iff ha hb hlayout]
    rintro ⟨hid, hsome, _⟩
    exact absurd ⟨hid, hsome⟩ hbad

def hostnameToml : String := "[hostname]\nname = \"web1\"\n"

theorem statements_hostnameToml : lineReader.statements hostnameToml =
    some [.table [] "hostname", .keyval [] "name" (.string "web1")] := rfl

theorem layout_hostname : Layout [.table [] "machine", .keyval [] "id" (.string "a71d0f9a")]
    [.table [] "hostname", .keyval [] "name" (.string "web1")] where
  machine := by decide
  system := by decide
  headers := rfl

/-- Without a machine file the three agree: none accepts. -/
theorem validate_parts_hostname : PartsAgree lineReader (some hostnameToml) none := by
  have hstatements : lineReader.statements (readOptional none) = some [] := rfl
  have hlayout : Layout [] [.table [] "hostname", .keyval [] "name" (.string "web1")] :=
    ⟨by decide, layout_hostname.system, rfl⟩
  have hsystem : lineReader.statements (readOptional (some hostnameToml)) =
      some [.table [] "hostname", .keyval [] "name" (.string "web1")] := statements_hostnameToml
  refine (validate_parts_iff hstatements hsystem hlayout).mpr ?_
  rintro ⟨⟨c, m, hc, hm, -⟩, -⟩
  obtain ⟨root, hroot, hc⟩ := Option.bind_eq_some_iff.mp hc
  have hempty : lineReader.parse (readOptional none) = some [] := by
    rw [Reader.parse, hstatements]
    rfl
  rw [hempty, Option.some.injEq] at hroot
  subst hroot
  have hmachine : some none = some c.machine := machine_fromToml hc
  rw [hm] at hmachine
  cases hmachine

/-- Two files that are as they should be, and `validate --system` refuses its
own. -/
theorem system_file_refused : ¬ ∀ (R : Reader) (system machine : Option String) (a b : List Stmt),
    R.statements (readOptional machine) = some a → R.statements (readOptional system) = some b →
      Layout a b → PartsAgree R system machine := by
  intro h
  have hparts := h lineReader (some hostnameToml) (some machineToml) _ _ statements_machineToml
    statements_hostnameToml layout_hostname
  have hmachine : lineReader.parse machineToml =
      some [("machine", .table [("id", .string "a71d0f9a")])] := by
    rw [Reader.parse, statements_machineToml]
    rfl
  have hhostname : lineReader.parse hostnameToml =
      some [("hostname", .table [("name", .string "web1")])] := by
    rw [Reader.parse, statements_hostnameToml]
    rfl
  let c : Config := ⟨some ⟨"a71d0f9a"⟩, none, none, none, none, none, none, none,
    [], [], [], [], [], [], []⟩
  have hid : HasId lineReader machineToml := by
    refine ⟨c, ⟨"a71d0f9a"⟩, ?_, rfl, by decide⟩
    rw [configOf, hmachine]
    rfl
  have hsome : (configOf lineReader hostnameToml).isSome := by
    rw [configOf, hhostname]
    rfl
  exact validate_system_fails statements_hostnameToml layout_hostname (hparts.accept hid hsome).2.2

end Zebrafish.ConfigTool
