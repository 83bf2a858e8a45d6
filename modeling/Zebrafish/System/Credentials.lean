import Mathlib.Data.List.Find
import Zebrafish.ConfigTool.Variables
import Zebrafish.Lib.Json
import Zebrafish.System.Address

/-!
# Zebrafish.System.Credentials

`docker-credential-zebrafish get`, which docker asks for the credentials of a
registry: it reads an address and prints a JSON object.

The script puts a username and a password between quotation marks as they are,
so what it prints is read as an entry's credentials only if they need no escapes
(`yields_own_iff`).  `answers_if_plain` is about the whole command, in any
locale: asked for an ordinary address, the entry it finds is the first one of
the host.
-/

namespace Zebrafish.System.Credentials

open Toml Shell ConfigTool

/-! ## the script -/

/-- `zf_has_present`. -/
def zfHasPresent (D : Display) (c : Config) (key : String) : Bool :=
  match KeyPath.parse key with
  | none => false
  | some path =>
      match getKey D c path ⟨key, none, false⟩ with
      | .ok output => output.code = 0
      | .error _ => false

/-- The variable of an entry, `DOCKER_REGISTRY_<i>_<field>`. -/
def registryVar (i : Nat) (field : String) : String :=
  "DOCKER_REGISTRY_" ++ (toString i ++ ("_" ++ field))

def readRegistry (vars : Env) (i : Nat) : DockerRegistry where
  hostname := deref vars (registryVar i "HOSTNAME")
  username := deref vars (registryVar i "USERNAME")
  password := deref vars (registryVar i "PASSWORD")

def readRegistries (vars : Env) : List DockerRegistry :=
  (List.range (number (derefOr vars "DOCKER_REGISTRY_COUNT" "0"))).map (readRegistry vars)

/-- What is printed for a username and a password. -/
def credentials (username password : String) : List Char :=
  echo ("\x7b\"Username\": \"".toList ++ (username.toList ++ ("\", \"Secret\": \"".toList ++
    (password.toList ++ "\"\x7d".toList))))

/-- What is printed if there is no entry. -/
def noCredentials : List Char := echo "\x7b\"Username\": \"\", \"Password\": \"\"\x7d".toList

/-- `[[ "${target_hostname,,}" = "${hostname,,}" ]]`; `lower` is what `,,` makes of
a character. -/
def sameHost (lower : Char → Char) (target : List Char) (hostname : String) : Bool :=
  target.map lower = hostname.toList.map lower

/-- `docker-credential-zebrafish get`, in an environment and a locale. -/
def get (D : Display) (lower : Char → Char) (c : Config) (env : Env) (stdin : List Char) :
    Option (List Char) :=
  let target := targetHostname stdin
  if zfHasPresent D c "docker-registry" then do
    let vars ← evalOutput env (listOutput D c "docker-registry")
    -- the loop prints the first match and exits
    match (readRegistries vars).find? fun d => sameHost lower target d.hostname with
    | some d => pure (credentials d.username d.password)
    | none => pure noCredentials
  else pure noCredentials

/-! ## what it is for -/

def usernameKey : List Char := ['U', 's', 'e', 'r', 'n', 'a', 'm', 'e']

def secretKey : List Char := ['S', 'e', 'c', 'r', 'e', 't']

/-- A text is an object with these credentials. -/
def Yields (text : List Char) (username password : String) : Prop :=
  ∃ members, Json.Decodes text (.object members) ∧
    Json.member usernameKey members = some (.str username.toList) ∧
    Json.member secretKey members = some (.str password.toList)

/-- The first entry of the host that is asked for. -/
def firstFor (c : Config) (stdin : List Char) : Option DockerRegistry :=
  c.dockerRegistry.find? fun d => sameHost Char.toLower (hostPart (address stdin)) d.hostname

/-- The credentials of that entry are printed. -/
def Answers (D : Display) (lower : Char → Char) (c : Config) (env : Env) (stdin : List Char) :
    Prop :=
  ∀ d, firstFor c stdin = some d →
    ∃ text, get D lower c env stdin = some text ∧ Yields text d.username d.password

/-! ## entries -/

/-- An entry as the variables have it. -/
def withoutNul (d : DockerRegistry) : DockerRegistry :=
  ⟨dropNul d.hostname, dropNul d.username, dropNul d.password⟩

/-- The section `docker-registry`, as it is walked. -/
theorem Config.walk_dockerRegistry (c : Config) (tail : List Segment) :
    walkSegments (.field "docker-registry" :: tail) c.view =
      (if c.dockerRegistry.isEmpty then none
        else some (DockerRegistry.codec.array.ser c.dockerRegistry)).bind (walkSegments tail) := by
  rw [Config.view, Config.codec, walk_struct (by decide +kernel)]
  simp only [Fields.optional, Fields.vec, Fields.cons, Fields.nil, lookup_entry]
  simp

/-- The fields of an entry. -/
theorem DockerRegistry.walk_field (d : DockerRegistry) (k : String) (tail : List Segment) :
    walkSegments (.field k :: tail) (DockerRegistry.codec.ser d) =
      (if k = "hostname" then some (.string d.hostname)
      else if k = "username" then some (.string d.username)
      else if k = "password" then some (.string d.password)
      else none).bind (walkSegments tail) := by
  rw [DockerRegistry.codec, walk_struct (by decide +kernel)]
  simp only [Fields.required, Fields.cons, Fields.nil, lookup_entry]
  congr 1

section

variable (D : Display) (c : Config) (i : Nat)

/-- The variable of a field. -/
theorem varName_registry (k : String) :
    registryVar i (mangle k) = varName [.field "docker-registry", .index i, .field k] false := by
  have hsection : "DOCKER_REGISTRY_" = mangle "docker-registry" ++ "_" := by decide
  -- spelled out: rewriting would compare the strings letter by letter
  calc registryVar i (mangle k)
      = mangle "docker-registry" ++ "_" ++ (toString i ++ ("_" ++ mangle k)) :=
        congrArg (· ++ (toString i ++ ("_" ++ mangle k))) hsection
    _ = varName [.field "docker-registry", .index i, .field k] false :=
        (varName_element "docker-registry" i k).symm

/-- The variable of a field, after the configuration has been evaluated. -/
theorem deref_registry (env : Env) {d : DockerRegistry} (hd : c.dockerRegistry[i]? = some d)
    {k s : String} (hslot : HasSlot Config.ty [.field "docker-registry", .index i, .field k] false)
    (hk : textIn D [.field k] (DockerRegistry.codec.ser d) = some (dropNul s)) :
    deref (env ++ sectionVars D c "docker-registry") (registryVar i (mangle k)) = dropNul s := by
  have hvalue := valueOf_sectionVars D c "docker-registry" hslot
  rw [if_pos List.head?_cons, textAt, textIn_element D (Config.walk_dockerRegistry c), hd,
    Option.bind_some, hk] at hvalue
  rw [deref, varName_registry, valueOf_append, hvalue, Option.some_or, Option.getD_some]

/-- An entry is read back short of NULs. -/
theorem readRegistry_eq (env : Env) {d : DockerRegistry} (hd : c.dockerRegistry[i]? = some d) :
    readRegistry (env ++ sectionVars D c "docker-registry") i = withoutNul d := by
  have htext (k : String) := textIn_of_walk (D := D) (DockerRegistry.walk_field d k [])
  have hhost := deref_registry D c i env hd ⟨.string, rfl, rfl, rfl⟩
    ((htext "hostname").trans (textIn_string D d.hostname))
  have huser := deref_registry D c i env hd ⟨.string, rfl, rfl, rfl⟩
    ((htext "username").trans (textIn_string D d.username))
  have hpass := deref_registry D c i env hd ⟨.string, rfl, rfl, rfl⟩
    ((htext "password").trans (textIn_string D d.password))
  rw [show mangle "hostname" = "HOSTNAME" by decide] at hhost
  rw [show mangle "username" = "USERNAME" by decide] at huser
  rw [show mangle "password" = "PASSWORD" by decide] at hpass
  rw [readRegistry, hhost, huser, hpass, withoutNul]

/-- The entries are read as they are listed. -/
theorem readRegistries_eq (env : Env) (hne : c.dockerRegistry ≠ []) :
    readRegistries (env ++ sectionVars D c "docker-registry") =
      c.dockerRegistry.map withoutNul := by
  have hslot : HasSlot Config.ty [.field "docker-registry"] true :=
    ⟨DockerRegistry.codec.array.ty, rfl, rfl, rfl⟩
  have hcount := valueOf_sectionVars D c "docker-registry" hslot
  rw [show varName [.field "docker-registry"] true = "DOCKER_REGISTRY_COUNT" by decide,
    if_pos List.head?_cons, textAt, textIn_count D (Config.walk_dockerRegistry c),
    if_neg (by simpa using hne)] at hcount
  have hnumber := number_length c.dockerRegistry.length
  rw [if_neg (by simpa using hne)] at hnumber
  rw [readRegistries, derefOr, valueOf_append, hcount, Option.some_or, hnumber]
  refine List.ext_getElem (by simp) fun i hi _ => ?_
  simp only [List.length_map, List.length_range] at hi
  simp [readRegistry_eq D c i env (List.getElem?_eq_getElem hi)]

/-- The section is there just if it has an entry. -/
theorem zfHasPresent_iff :
    zfHasPresent D c "docker-registry" = true ↔ c.dockerRegistry ≠ [] := by
  have hparse : KeyPath.parse "docker-registry" = some ⟨[.field "docker-registry"], by simp⟩ := by
    decide +kernel
  have hwalk := Config.walk_dockerRegistry c []
  cases hentries : c.dockerRegistry with
  | nil =>
      rw [hentries] at hwalk
      simp_all [zfHasPresent, getKey, KeyPath.lookup]
  | cons d ds =>
      rw [hentries] at hwalk
      simp_all [zfHasPresent, getKey, KeyPath.lookup, walkSegments]

end

/-! ## what is printed -/

/-- No character of a text needs an escape. -/
def isPlainText (s : String) : Bool := s.toList.all Json.isPlain

def isPlainEntry (d : DockerRegistry) : Bool := isPlainText d.username && isPlainText d.password

/-- The entry the script finds: the first with the name it has extracted, up to
what `,,` does. -/
def selected (lower : Char → Char) (c : Config) (stdin : List Char) : Option DockerRegistry :=
  c.dockerRegistry.find? fun d => sameHost lower (targetHostname stdin) (dropNul d.hostname)

/-- What is printed for an entry. -/
def printedFor (d : DockerRegistry) : List Char :=
  credentials (dropNul d.username) (dropNul d.password)

/-- **The command.**  It prints the entry that it finds. -/
theorem get_eq (D : Display) (lower : Char → Char) (c : Config) (env : Env) (stdin : List Char) :
    get D lower c env stdin =
      some (((selected lower c stdin).map printedFor).getD noCredentials) := by
  by_cases hne : c.dockerRegistry = []
  · have hpresent : ¬ zfHasPresent D c "docker-registry" = true := by
      simp [zfHasPresent_iff, hne]
    simp [get, hpresent, selected, hne]
  · have hpresent := (zfHasPresent_iff D c).mpr hne
    have hfind : ((c.dockerRegistry.map withoutNul).find? fun d =>
        sameHost lower (targetHostname stdin) d.hostname) =
          (selected lower c stdin).map withoutNul := by
      simp only [List.find?_map, selected, Function.comp_def, withoutNul]
    simp only [get, hpresent, if_true, evalOutput_listOutput, Option.bind_eq_bind,
      Option.bind_some, readRegistries_eq D c env hne, hfind]
    cases selected lower c stdin with
    | none => simp
    | some d => simp [printedFor, withoutNul]

/-! ## the object -/

/-- What is printed before the username. -/
def opening : List Char :=
  ['\x7b', '"', 'U', 's', 'e', 'r', 'n', 'a', 'm', 'e', '"', ':', ' ', '"']

/-- What is printed between the username and the password. -/
def middle : List Char := ['"', ',', ' ', '"', 'S', 'e', 'c', 'r', 'e', 't', '"', ':', ' ', '"']

/-- What is printed behind the password. -/
def closing : List Char := ['"', '\x7d', '\n']

/-- What is printed, piece by piece. -/
theorem credentials_append (username password : String) :
    credentials username password =
      opening ++ (username.toList ++ (middle ++ (password.toList ++ closing))) := by
  simp [credentials, echo, isEchoOption, opening, middle, closing]

/-- The opening is read up to the string of the username. -/
theorem run_opening : Json.run (.between []) opening =
    some ([.punct '\x7b', .str usernameKey, .punct ':'], .string []) := by
  simp [opening, usernameKey, Json.run, Json.step, Json.isBlank, Json.isPunct, Json.wordToken,
    Json.join]

/-- From there, the middle ends it and goes to the string of the password. -/
theorem run_middle_string (ps : List Json.Piece) : Json.run (.string ps) middle =
    some ([.str (Json.join ps), .punct ',', .str secretKey, .punct ':'], .string []) := by
  simp [middle, secretKey, Json.run, Json.step, Json.isBlank, Json.isPunct, Json.wordToken,
    Json.join]

/-- The closing ends that. -/
theorem run_closing_string (ps : List Json.Piece) : Json.run (.string ps) closing =
    some ([.str (Json.join ps), .punct '\x7d'], .between []) := by
  simp [closing, Json.run, Json.step, Json.isBlank, Json.isPunct, Json.wordToken]

/-- What follows the username is read only if its string is still open: otherwise
the key of the password stands there as a bare word. -/
theorem run_middle {m m' : Json.Mode} {ts : List Json.Token}
    (h : Json.run m middle = some (ts, m')) : ∃ ps, m = .string ps := by
  have hsecret : Json.wordToken ['S', 'e', 'c', 'r', 'e', 't'] = none := by decide
  cases m with
  | string ps => exact ⟨ps, rfl⟩
  | between w =>
      cases hw : Json.wordToken w <;>
        simp [middle, Json.run, Json.step, Json.isBlank, Json.isPunct, hsecret, hw] at h
  | escape ps =>
      simp [middle, Json.run, Json.step, Json.isBlank, Json.isPunct, Json.escaped, hsecret] at h
  | unicode ps left n =>
      have hquote : Json.hexValue '"' = none := by decide
      simp [middle, Json.run, Json.step, hquote] at h

/-- The end is read only if the string of the password is still open: otherwise
it is in a string, and the newline cannot be. -/
theorem run_closing {m m' : Json.Mode} {ts : List Json.Token}
    (h : Json.run m closing = some (ts, m')) : ∃ ps, m = .string ps := by
  cases m with
  | string ps => exact ⟨ps, rfl⟩
  | between w => cases hw : Json.wordToken w <;> simp [closing, Json.run, Json.step, hw] at h
  | escape ps => simp [closing, Json.run, Json.step, Json.escaped] at h
  | unicode ps left n =>
      have hquote : Json.hexValue '"' = none := by decide
      simp [closing, Json.run, Json.step, hquote] at h

/-- **The tokens of what is printed.** -/
theorem lex_credentials {username password : String} {tokens : List Json.Token} :
    Json.lex (credentials username password) = some tokens ↔
      ∃ ts₁ ps₁ ts₂ ps₂,
        Json.run (.string []) username.toList = some (ts₁, .string ps₁) ∧
        Json.run (.string []) password.toList = some (ts₂, .string ps₂) ∧
        tokens = [.punct '\x7b', .str usernameKey, .punct ':'] ++ (ts₁ ++
          ([.str (Json.join ps₁), .punct ',', .str secretKey, .punct ':'] ++ (ts₂ ++
            [.str (Json.join ps₂), .punct '\x7d']))) := by
  rw [Json.lex, credentials_append, Json.run_append, run_opening]
  constructor
  · intro h
    simp only [Json.run_append, Option.bind_eq_bind, Option.bind_some, Option.bind_eq_some_iff,
      Option.map_eq_some_iff, Prod.exists, Prod.mk.injEq] at h
    obtain ⟨_, m, ⟨_, _, ⟨ts₁, m₁, hu, _, _, ⟨_, _, hmiddle, _, _,
      ⟨ts₂, m₂, hp, _, _, hclosing, rfl, rfl⟩, rfl, rfl⟩, rfl, rfl⟩, rfl, rfl⟩, hend⟩ := h
    obtain ⟨ps₁, rfl⟩ := run_middle hmiddle
    cases (run_middle_string ps₁).symm.trans hmiddle
    obtain ⟨ps₂, rfl⟩ := run_closing hclosing
    cases (run_closing_string ps₂).symm.trans hclosing
    refine ⟨ts₁, ps₁, ts₂, ps₂, hu, hp, ?_⟩
    simpa [Json.wordToken] using hend.symm
  · rintro ⟨ts₁, ps₁, ts₂, ps₂, hu, hp, rfl⟩
    simp [Json.run_append, hu, hp, run_middle_string, run_closing_string, Json.wordToken]

/-! ## the credentials of an entry -/

/-- A string that is read from what is printed for a text. -/
def ReadFrom (cs s : List Char) : Prop :=
  if cs.all Json.isPlain then s = cs else s.length < cs.length

/-- A string in the output is plain, or was read from one of the texts. -/
theorem mem_credentials {username password : String} {tokens : List Json.Token} {s : List Char}
    (h : Json.lex (credentials username password) = some tokens) (hs : .str s ∈ tokens) :
    s.all Json.isPlain ∨ ReadFrom username.toList s ∨ ReadFrom password.toList s := by
  obtain ⟨ts₁, ps₁, ts₂, ps₂, hu, hp, rfl⟩ := lex_credentials.mp h
  simp only [List.mem_append, List.mem_cons, Json.Token.str.injEq, reduceCtorEq, false_or,
    List.not_mem_nil, or_false] at hs
  obtain rfl | hs | (hs | rfl) | hs | hs := hs
  · exact Or.inl (by decide)
  · exact Or.inr (Or.inl (Json.region hu (Or.inr hs)))
  · exact Or.inr (Or.inl (Json.region hu (Or.inl hs)))
  · exact Or.inl (by decide)
  · exact Or.inr (Or.inr (Json.region hp (Or.inr hs)))
  · exact Or.inr (Or.inr (Json.region hp (Or.inl hs)))

/-- A string that is not plain is not read from what is printed for it: it is read
from the other text, which is not plain either, and longer. -/
theorem elsewhere {s cs other : List Char} (hs : ¬ s.all Json.isPlain) (hsub : cs.Sublist s)
    (h : s.all Json.isPlain ∨ ReadFrom cs s ∨ ReadFrom other s) :
    ¬ other.all Json.isPlain ∧ s.length < other.length := by
  have hlen := hsub.length_le
  obtain h | hown | hother := h
  · exact absurd h hs
  · rw [ReadFrom] at hown
    split_ifs at hown with hplain
    · exact absurd (hown ▸ hplain) hs
    · omega
  · rw [ReadFrom] at hother
    split_ifs at hother with hplain
    · exact absurd (hother ▸ hplain) hs
    · exact ⟨hplain, hother⟩

/-- So of two strings none needs an escape: the one would have to be longer than
the other, and the other than the one. -/
theorem plain_of_readFrom {s cs s' cs' : List Char} (hsub : cs.Sublist s) (hsub' : cs'.Sublist s')
    (h : s.all Json.isPlain ∨ ReadFrom cs s ∨ ReadFrom cs' s)
    (h' : s'.all Json.isPlain ∨ ReadFrom cs s' ∨ ReadFrom cs' s') : s.all Json.isPlain := by
  by_contra hs
  obtain ⟨hcs', hlt⟩ := elsewhere hs hsub h
  have hs' : ¬ s'.all Json.isPlain := fun hall =>
    hcs' (List.all_eq_true.mpr fun c hc => List.all_eq_true.mp hall c (hsub'.mem hc))
  obtain ⟨_, hgt⟩ := elsewhere hs' hsub' (h'.imp_right Or.symm)
  have hlen := hsub.length_le
  have hlen' := hsub'.length_le
  omega

/-- A plain text has no NUL. -/
theorem dropNul_of_plain {s : String} (h : isPlainText s) : dropNul s = s := by
  refine dropNul_of_not_mem fun hmem => ?_
  have hplain := List.all_eq_true.mp h _ hmem
  exact absurd hplain (by decide)

/-- Dropping NULs adds nothing. -/
theorem sublist_dropNul (s : String) : (dropNul s).toList.Sublist s.toList := by
  rw [toList_dropNul]
  exact List.filter_sublist

/-- An entry that is read as it is needs no escapes. -/
theorem plain_of_yields {d : DockerRegistry}
    (h : Yields (printedFor d) d.username d.password) : isPlainEntry d := by
  obtain ⟨members, hdecodes, husername, hsecret⟩ := h
  have hu := mem_credentials hdecodes (Json.mem_tokens_of_member husername)
  have hp := mem_credentials hdecodes (Json.mem_tokens_of_member hsecret)
  have husub := sublist_dropNul d.username
  have hpsub := sublist_dropNul d.password
  have huplain := plain_of_readFrom husub hpsub hu hp
  have hpplain := plain_of_readFrom hpsub husub (hp.imp_right Or.symm) (hu.imp_right Or.symm)
  rw [isPlainEntry, isPlainText, isPlainText, huplain, hpplain, Bool.and_self]

/-- For plain texts the output is the object. -/
theorem decodes_credentials {username password : String} (hu : isPlainText username)
    (hp : isPlainText password) : Json.Decodes (credentials username password)
      (.object [(usernameKey, .str username.toList), (secretKey, .str password.toList)]) := by
  refine lex_credentials.mpr ⟨[], _, [], _, Json.run_plain hu [], Json.run_plain hp [], ?_⟩
  simp [Json.Value.tokens, Json.memberTokens]

theorem member_usernameKey (u p : Json.Value) :
    Json.member usernameKey [(usernameKey, u), (secretKey, p)] = some u := by
  simp [Json.member, usernameKey, secretKey, List.lookup_cons]

theorem member_secretKey (u p : Json.Value) :
    Json.member secretKey [(usernameKey, u), (secretKey, p)] = some p := by
  simp [Json.member, secretKey]

/-- A plain entry is printed so that it is read as it is. -/
theorem yields_plain {d : DockerRegistry} (h : isPlainEntry d) {username password : String} :
    Yields (printedFor d) username password ↔ d.username = username ∧ d.password = password := by
  simp only [isPlainEntry, Bool.and_eq_true] at h
  have hdecodes := decodes_credentials h.1 h.2
  rw [printedFor, dropNul_of_plain h.1, dropNul_of_plain h.2]
  constructor
  · rintro ⟨members, hmembers, husername, hsecret⟩
    cases hdecodes.unique hmembers
    rw [member_usernameKey, Option.some.injEq, Json.Value.str.injEq, String.toList_inj] at husername
    rw [member_secretKey, Option.some.injEq, Json.Value.str.injEq, String.toList_inj] at hsecret
    exact ⟨husername, hsecret⟩
  · rintro ⟨rfl, rfl⟩
    exact ⟨_, hdecodes, member_usernameKey _ _, member_secretKey _ _⟩

/-- An entry is read as its own credentials just if it is plain. -/
theorem yields_own_iff (d : DockerRegistry) :
    Yields (printedFor d) d.username d.password ↔ isPlainEntry d :=
  ⟨plain_of_yields, fun h => (yields_plain h).mpr ⟨rfl, rfl⟩⟩

/-- What is printed if there is no entry has no secret. -/
theorem not_yields_noCredentials (username password : String) :
    ¬ Yields noCredentials username password := by
  rintro ⟨members, hmembers, _, hsecret⟩
  have hdecodes : Json.Decodes noCredentials (.object [(usernameKey, .str []),
      (['P', 'a', 's', 's', 'w', 'o', 'r', 'd'], .str [])]) := by
    have htext : noCredentials =
        ['\x7b', '"', 'U', 's', 'e', 'r', 'n', 'a', 'm', 'e', '"', ':', ' ', '"', '"', ',', ' ',
          '"', 'P', 'a', 's', 's', 'w', 'o', 'r', 'd', '"', ':', ' ', '"', '"', '\x7d', '\n'] := by
      simp [noCredentials, echo, isEchoOption]
    rw [Json.Decodes, htext]
    decide
  cases hdecodes.unique hmembers
  simp [Json.member, usernameKey, secretKey, List.lookup_cons] at hsecret

/-! ## the command -/

/-- What `get` prints is what is printed for the entry it finds. -/
theorem yields_get_iff (D : Display) (lower : Char → Char) (c : Config) (env : Env)
    (stdin : List Char) (username password : String) :
    (∃ text, get D lower c env stdin = some text ∧ Yields text username password) ↔
      ∃ d', selected lower c stdin = some d' ∧ Yields (printedFor d') username password := by
  rw [get_eq]
  cases selected lower c stdin with
  | none => simpa using not_yields_noCredentials username password
  | some d' => simp

/-- A registry whose password has a quotation mark in it. -/
def quotedPassword : DockerRegistry := ⟨"ghcr.io", "me", "pa\"ss"⟩

/-- The quotation mark ends the string. -/
theorem not_answers_quotedPassword :
    ¬ Answers noDisplay Char.toLower { Config.empty with dockerRegistry := [quotedPassword] } []
      "https://ghcr.io\n".toList := by
  intro h
  have hget := h quotedPassword (List.find?_cons_of_pos (by decide))
  have hselected : selected Char.toLower { Config.empty with dockerRegistry := [quotedPassword] }
      "https://ghcr.io\n".toList = some quotedPassword := List.find?_cons_of_pos (by decide)
  rw [yields_get_iff, hselected] at hget
  obtain ⟨d', hd', hyields⟩ := hget
  obtain rfl := Option.some.inj hd'
  exact absurd (plain_of_yields hyields) (by decide)

/-! ## ordinary addresses -/

def isAscii (c : Char) : Bool := c.toNat < 128

/-- Names of ASCII characters without NULs. -/
def PlainNames (c : Config) : Prop :=
  ∀ d ∈ c.dockerRegistry, ∀ x ∈ d.hostname.toList, isAscii x ∧ x ≠ Char.ofNat 0

/-- A character of a word is ASCII. -/
theorem isAscii_of_isWordChar {c : Char} (h : isWordChar c) : isAscii c := by
  have halpha : c.isAlpha = (decide ('A'.val ≤ c.val ∧ c.val ≤ 'Z'.val) ||
      (decide ('a'.val ≤ c.val) && decide (c.val ≤ 'z'.val))) := rfl
  simp only [isWordChar, Char.isAlphanum, halpha, Char.isDigit, Bool.or_eq_true,
    Bool.and_eq_true, decide_eq_true_eq, List.mem_cons, List.not_mem_nil, or_false, ge_iff_le,
    UInt32.le_iff_toNat_le] at h
  have hends : 'Z'.val.toNat = 90 ∧ 'z'.val.toNat = 122 ∧ '9'.val.toNat = 57 := by decide
  obtain hrange | rfl | rfl | rfl | rfl := h
  · simp only [isAscii, decide_eq_true_eq, Char.toNat]
    omega
  all_goals decide

/-- Lower case of ASCII does not depend on the locale. -/
theorem map_lower_eq {lower : Char → Char} (hlower : ∀ x, isAscii x → lower x = x.toLower)
    {cs : List Char} (h : ∀ x ∈ cs, isAscii x) : cs.map lower = cs.map Char.toLower :=
  List.map_congr_left fun x hx => hlower x (h x hx)

/-- Asked for an ordinary address, the script finds the first entry of the host. -/
theorem selected_eq_firstFor {lower : Char → Char} {c : Config} {host stdin : List Char}
    (hlower : ∀ x, isAscii x → lower x = x.toLower) (hnames : PlainNames c)
    (haddr : IsAddress host (address stdin)) : selected lower c stdin = firstFor c stdin := by
  have hhost : host.map lower = host.map Char.toLower := map_lower_eq hlower fun x hx =>
    isAscii_of_isWordChar (List.all_eq_true.mp haddr.word x hx)
  rw [selected, firstFor, targetHostname_address haddr, hostPart_address haddr]
  refine List.find?_congr fun d hd => ?_
  have hnul : dropNul d.hostname = d.hostname :=
    dropNul_of_not_mem fun hmem => (hnames d hd _ hmem).2 rfl
  rw [sameHost, sameHost, hnul, hhost, map_lower_eq hlower fun x hx => (hnames d hd x hx).1]

/-- An ordinary address, and a list of registries with plain names. -/
def Ordinary (c : Config) (stdin : List Char) : Prop :=
  PlainNames c ∧ ∃ host, IsAddress host (address stdin)

/-- The first entry of the host needs no escapes. -/
def FirstPlain (c : Config) (stdin : List Char) : Prop :=
  ∀ d, firstFor c stdin = some d → isPlainEntry d

/-- **What `get` answers.**  Asked for an ordinary address, it prints the
credentials of the first entry of the host if and only if these are plain.  For
any other address too they have to be, unless another entry is not plain. -/
theorem answers_if_plain (D : Display) (lower : Char → Char) (c : Config) (env : Env)
    (stdin : List Char) (hlower : ∀ x, isAscii x → lower x = x.toLower) :
    (Ordinary c stdin → FirstPlain c stdin → Answers D lower c env stdin) ∧
    (Ordinary c stdin → Answers D lower c env stdin → FirstPlain c stdin) ∧
    (∀ d, firstFor c stdin = some d →
      (∀ d' ∈ c.dockerRegistry, d' ≠ d → isPlainEntry d') →
        Answers D lower c env stdin → isPlainEntry d) := by
  refine ⟨fun hord hplain d hd => ?_, fun hord h d hd => ?_, fun d hd hothers h => ?_⟩
  · obtain ⟨hnames, host, haddr⟩ := hord
    rw [yields_get_iff, selected_eq_firstFor hlower hnames haddr, hd]
    exact ⟨d, rfl, (yields_own_iff d).mpr (hplain d hd)⟩
  · obtain ⟨hnames, host, haddr⟩ := hord
    have hget := h d hd
    rw [yields_get_iff, selected_eq_firstFor hlower hnames haddr, hd] at hget
    obtain ⟨d', hd', hyields⟩ := hget
    obtain rfl := Option.some.inj hd'
    exact plain_of_yields hyields
  · obtain ⟨d', hd', hyields⟩ := (yields_get_iff _ _ _ _ _ _ _).mp (h d hd)
    by_cases hsame : d' = d
    · subst hsame
      exact plain_of_yields hyields
    · -- what is printed for a plain entry is read as its own credentials only
      have hplain := hothers d' (List.mem_of_find?_eq_some hd') hsame
      obtain ⟨husername, hpassword⟩ := (yields_plain hplain).mp hyields
      rwa [isPlainEntry, husername, hpassword] at hplain

/-- Two entries of one host, in capitals once, and one of another. -/
def someRegistries : List DockerRegistry :=
  [⟨"quay.io", "you", "\"\\"⟩, ⟨"GHCR.io", "me", "$(pa)'ss: 1"⟩, ⟨"ghcr.io", "", ""⟩]

/-- What docker may ask for. -/
def someUrl : List Char :=
  "https".toList ++ ':' :: '/' :: '/' :: ("me:x".toList ++ '@' :: ("ghcr.io".toList ++
    ":443/v2/@a".toList))

theorem ordinary_someUrl :
    Ordinary { Config.empty with dockerRegistry := someRegistries } (someUrl ++ ['\n']) := by
  have hnames : someRegistries.all (fun d =>
      d.hostname.toList.all fun x => isAscii x && x ≠ Char.ofNat 0) = true := by decide +kernel
  have haddr : IsAddress "ghcr.io".toList someUrl :=
    .user (by decide) (by decide) (by decide +kernel) (by decide +kernel) (by simp)
      (by decide +kernel)
  refine ⟨fun d hd x hx => ?_, "ghcr.io".toList, haddr⟩
  simpa using List.all_eq_true.mp (List.all_eq_true.mp hnames d hd) x hx

/-- The first of the two is answered, for a URL with a user and a port. -/
theorem answers_if_plain_ghcr : ∃ text,
    get noDisplay Char.toLower { Config.empty with dockerRegistry := someRegistries } []
      (someUrl ++ ['\n']) = some text ∧ Yields text "me" "$(pa)'ss: 1" := by
  have hfirst : firstFor { Config.empty with dockerRegistry := someRegistries }
      (someUrl ++ ['\n']) = some ⟨"GHCR.io", "me", "$(pa)'ss: 1"⟩ := by
    rw [firstFor, someRegistries, List.find?_cons_of_neg (by decide),
      List.find?_cons_of_pos (by decide)]
  refine (answers_if_plain noDisplay Char.toLower _ [] _ fun _ _ => rfl).1 ordinary_someUrl
    (fun d hd => ?_) _ hfirst
  rw [hfirst] at hd
  cases hd
  decide

end Zebrafish.System.Credentials
