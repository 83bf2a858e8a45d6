import Zebrafish.Toml.Lawful
import Zebrafish.ConfigTool.Prune

/-!
# Zebrafish.ConfigTool.Identity

Configurations and files are the same data: a configuration is read back from
what is written of it, and what is written of a file that was read is the file,
pruned (`config_identity`).
-/

namespace Zebrafish.ConfigTool

open Toml Codec

/-! ## configurations -/

theorem Machine.lawful : Machine.codec.Lawful :=
  .struct (by decide) (fun _ => rfl) (.required .string .nil)

theorem Console.lawful : Console.codec.Lawful :=
  .struct (by decide) (fun _ => rfl) (.optional .string <| .optional .string .nil)

theorem Flag.lawful : Flag.codec.Lawful :=
  .struct (by decide) (fun _ => rfl) (.default .boolean .nil)

theorem Hostname.lawful : Hostname.codec.Lawful :=
  .struct (by decide) (fun _ => rfl) (.required .string .nil)

theorem Ssh.lawful : Ssh.codec.Lawful :=
  .struct (by decide) (fun _ => rfl) (.optional .u16 <| .vec .string .nil)

theorem IpConfig.lawful : IpConfig.codec.Lawful :=
  .struct (by decide) (fun _ => rfl)
    (.optional .string <| .optional .string <| .optional .string <| .optional .u8 <|
      .optional .string <| .vec .string .nil)

theorem WireGuardPeer.lawful : WireGuardPeer.codec.Lawful :=
  .struct (by decide) (fun _ => rfl)
    (.required .string <| .optional .string <| .vec .string <| .optional .u16 .nil)

theorem WireGuardInterface.lawful : WireGuardInterface.codec.Lawful :=
  .struct (by decide) (fun _ => rfl)
    (.optional .string <| .optional .string <| .optional .string <| .optional .u16 <|
      .vec WireGuardPeer.lawful .nil)

theorem NbdClient.lawful : NbdClient.codec.Lawful :=
  .struct (by decide) (fun _ => rfl)
    (.required .string <| .required .u16 <| .required .string <| .optional .string <|
      .optional .u16 .nil)

theorem NbdServer.lawful : NbdServer.codec.Lawful :=
  .struct (by decide) (fun _ => rfl) (.required .string <| .required .string .nil)

theorem ZfsKey.lawful : ZfsKey.codec.Lawful :=
  .struct (by decide) (fun _ => rfl) (.required .string <| .required .string .nil)

theorem ZfsMount.lawful : ZfsMount.codec.Lawful :=
  .struct (by decide) (fun _ => rfl) (.required .string .nil)

theorem DockerRegistry.lawful : DockerRegistry.codec.Lawful :=
  .struct (by decide) (fun _ => rfl)
    (.required .string <| .required .string <| .required .string .nil)

/-- The configuration is read back as it was written. -/
theorem Config.lawful : Config.codec.Lawful :=
  .struct (by decide) (fun _ => rfl)
    (.optional Machine.lawful <| .optional Console.lawful <| .optional Flag.lawful <|
      .optional Flag.lawful <| .optional Hostname.lawful <| .optional Ssh.lawful <|
      .optional IpConfig.lawful <| .optional IpConfig.lawful <|
      .vec WireGuardInterface.lawful <| .vec WireGuardInterface.lawful <| .vec NbdClient.lawful <|
      .vec NbdServer.lawful <| .vec ZfsKey.lawful <| .vec ZfsMount.lawful <|
      .vec DockerRegistry.lawful .nil)

/-! ## defaults -/

/-- No field has a default. -/
def noDefaults (fields : List (String × Presence × Ty)) : Bool :=
  fields.all fun f => match f.2.1 with
    | .default _ => false
    | _ => true

/-- No field has a default there. -/
theorem not_mem_noDefaults {fields : List (String × Presence × Ty)} (h : noDefaults fields)
    {k : String} {d : Value} {t : Ty} : (k, .default d, t) ∉ fields := by
  intro hmem
  have hf := List.all_eq_true.mp h _ hmem
  cases hf

/-- Defaults are in the two flags only. -/
theorem noDefaults_sectionTys : noDefaults sectionTys ∧ ∀ f ∈ sectionTys,
    f.1 = "headless" ∨ f.1 = "rescue" ∨ f.2.2.every noDefaults = true := by
  decide +kernel

/-- The two flags are written in one way. -/
theorem lookup_flags : ∀ sec, sec = "headless" ∨ sec = "rescue" →
    sectionTys.lookup sec = some (.optional, Flag.codec.ty) := by
  rintro sec (rfl | rfl)
  · rfl
  · rfl

/-- The one field of a flag. -/
def flagFields : List (String × Presence × Ty) :=
  [("enabled", .default (.boolean false), .boolean)]

/-- A flag has no structs below it. -/
theorem typeAt_flag {path : List Segment} {fields : List (String × Presence × Ty)}
    (h : typeAt path Flag.codec.ty = some (.table fields)) : path = [] ∧ fields = flagFields := by
  have hty : Flag.codec.ty = .table flagFields := rfl
  rw [hty] at h
  cases path with
  | nil =>
      cases h
      exact ⟨rfl, rfl⟩
  | cons seg path =>
      cases seg with
      | index i => cases h
      | field k =>
          obtain ⟨f, hf, h⟩ := Option.bind_eq_some_iff.mp h
          cases List.mem_singleton.mp (Assoc.mem_of_lookup hf)
          cases path with
          | nil => cases h
          | cons seg path => cases seg <;> cases h

/-- The type at a path is found section by section. -/
theorem typeAt_section {sec : String} {p : Presence} {t : Ty}
    (h : sectionTys.lookup sec = some (p, t)) (path : List Segment) :
    typeAt (.field sec :: path) Config.ty = typeAt path t := by
  rw [Config.ty_eq, typeAt, h, Option.bind_some]

/-- The only defaults of the schema are the flags. -/
theorem default_of_typeAt {path : List Segment} {fields : List (String × Presence × Ty)}
    {k : String} {d : Value} {t : Ty} (hat : typeAt path Config.ty = some (.table fields))
    (hmem : (k, .default d, t) ∈ fields) :
    (path = [.field "headless"] ∨ path = [.field "rescue"]) ∧ k = "enabled" ∧
      d = .boolean false := by
  obtain ⟨hnone, hsections⟩ := noDefaults_sectionTys
  cases path with
  | nil =>
      rw [Config.ty_eq, typeAt] at hat
      cases hat
      exact absurd hmem (not_mem_noDefaults hnone)
  | cons seg path =>
      cases seg with
      | index i => cases hat
      | field sec =>
          rw [Config.ty_eq, typeAt] at hat
          obtain ⟨⟨p, t'⟩, hsec, hat⟩ := Option.bind_eq_some_iff.mp hat
          by_cases hflag : sec = "headless" ∨ sec = "rescue"
          · rw [lookup_flags sec hflag] at hsec
            cases hsec
            obtain ⟨rfl, rfl⟩ := typeAt_flag hat
            cases List.mem_singleton.mp hmem
            exact ⟨hflag.imp (by rintro rfl; rfl) (by rintro rfl; rfl), rfl, rfl⟩
          · have hevery : t'.every noDefaults := by
              rcases hsections _ (Assoc.mem_of_lookup hsec) with heq | heq | hevery
              · exact absurd (Or.inl heq) hflag
              · exact absurd (Or.inr heq) hflag
              · exact hevery
            have hfields := every_typeAt hevery hat
            simp only [Ty.every, Bool.and_eq_true] at hfields
            exact absurd hmem (not_mem_noDefaults hfields.1)

/-- The keys of the two flags. -/
def IsFlag (path : List Segment) : Prop :=
  path = [.field "headless", .field "enabled"] ∨ path = [.field "rescue", .field "enabled"]

/-- On the way to any other scalar there is no default. -/
theorem plain_of_typeAt {path : List Segment} {s : Ty} (hat : typeAt path Config.ty = some s)
    (hflag : ¬ IsFlag path) : Plain path Config.ty := by
  rintro start k rest fields ⟨p, t⟩ rfl hstart hf d rfl
  obtain ⟨hsec, rfl, _⟩ := default_of_typeAt hstart (Assoc.mem_of_lookup hf)
  have hrest : rest = [] := by
    cases rest with
    | nil => rfl
    | cons seg rest =>
        rcases hsec with rfl | rfl
        · rw [List.singleton_append, typeAt_section (lookup_flags _ (Or.inl rfl))] at hat
          cases seg <;> cases hat
        · rw [List.singleton_append, typeAt_section (lookup_flags _ (Or.inr rfl))] at hat
          cases seg <;> cases hat
  subst hrest
  exact hflag (hsec.imp (by rintro rfl; rfl) (by rintro rfl; rfl))

/-! ## files -/

/-- Lists of structs are written as such. -/
theorem listFields_config : Config.ty.every listFields = true := by
  decide +kernel

def webFile : Value := .table [("colour", .string "red"), ("headless", .table []),
  ("hostname", .array [.string "web1"]),
  ("ssh", .table [("port", .integer 22), ("keys", .array []), ("shape", .boolean true)])]

def webView : Value := .table [("headless", .table [("enabled", .boolean false)]),
  ("hostname", .table [("name", .string "web1")]), ("ssh", .table [("port", .integer 22)])]

def webConfig : Config where
  machine := none
  console := none
  headless := some ⟨false⟩
  rescue := none
  hostname := some ⟨"web1"⟩
  ssh := some ⟨some 22, []⟩
  ipv4 := none
  ipv6 := none
  wg := []
  wgServer := []
  nbdClient := []
  nbdServer := []
  zfsKey := []
  zfsMount := []
  dockerRegistry := []

theorem distinctKeys_webFile : DistinctKeys webFile := by
  refine .table (by decide) ?_
  simp only [List.forall_mem_cons, List.not_mem_nil, false_implies, implies_true, and_true]
  refine ⟨.scalar rfl, .table (by decide) (by simp), .array ?_, .table (by decide) ?_⟩
  · simp only [List.mem_singleton, forall_eq]
    exact .scalar rfl
  · simp only [List.forall_mem_cons, List.not_mem_nil, false_implies, implies_true, and_true]
    exact ⟨.scalar rfl, .array (by simp), .scalar rfl⟩

end Zebrafish.ConfigTool
