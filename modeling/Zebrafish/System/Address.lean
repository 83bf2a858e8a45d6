import Mathlib.Data.List.TakeWhile
import Zebrafish.Lib.Filter

/-!
# Zebrafish.System.Address

The host in the address of a server.

`hostPart` is the host of an address, a bare `host[:port][/path]` or a URL.
`targetHostname` is what `docker-credential-zebrafish` makes of it, with `read`
and a substitution of `sed` that does nothing without a `//`.  They agree on
bare hosts and on ordinary URLs (`targetHostname_address`, `hostPart_address`).
-/

namespace Zebrafish.System.Credentials

open Shell

/-! ## the script -/

/-- The characters `read` takes, and if a backslash was before them.  A backslash
before a newline joins two lines; NULs are skipped. -/
def readChars : List Char → List (Char × Bool)
  | '\\' :: c :: cs =>
      if c = '\n' then readChars cs
      -- a NUL behind a backslash is taken, and ends the text
      else if c = Char.ofNat 0 then []
      else (c, true) :: readChars cs
  | c :: cs =>
      if c = '\n' ∨ c = '\\' then []
      else if c = Char.ofNat 0 then readChars cs
      else (c, false) :: readChars cs
  | [] => []

/-- A separator at which `read` splits. -/
def isSeparator (c : Char × Bool) : Bool := isIfs c.1 && !c.2

/-- `read target_hostname`. -/
def readVar (stdin : List Char) : List Char :=
  let read := (readChars stdin).dropWhile isSeparator
  ((read.reverse.dropWhile isSeparator).reverse).map Prod.fst

/-- What is before the first `//`, and what is behind it. -/
def splitSlashes : List Char → Option (List Char × List Char)
  | '/' :: '/' :: cs => some ([], cs)
  | c :: cs => (splitSlashes cs).map fun r => (c :: r.1, r.2)
  | [] => none

/-- `s/[^/]*\/\/\([^@]*@\)\?\([^:/]*\).*/\2/`. -/
def extractHost (line : List Char) : List Char :=
  match splitSlashes line with
  | none => line
  | some (before, rest) =>
      -- what matches begins behind the last slash before the two
      let kept := (before.reverse.dropWhile (· ≠ '/')).reverse
      let rest := if '@' ∈ rest then (rest.dropWhile (· ≠ '@')).tail else rest
      kept ++ rest.takeWhile fun c => c ≠ ':' && c ≠ '/'

/-- `target_hostname`. -/
def targetHostname (stdin : List Char) : List Char :=
  capture (sed extractHost (echo (readVar stdin)))

/-! ## what it is for -/

/-- The address that is asked for. -/
def address (stdin : List Char) : List Char := stdin.takeWhile (· ≠ '\n')

/-- What follows the scheme of a URL; an address without a scheme is all of it. -/
def afterScheme (addr : List Char) : List Char :=
  match addr.dropWhile fun c => c ≠ ':' && c ≠ '/' with
  | ':' :: '/' :: '/' :: rest => rest
  | _ => addr

/-- A character of what comes before the path, the query and the fragment. -/
def inAuthority (c : Char) : Bool := c ≠ '/' && c ≠ '?' && c ≠ '#'

/-- The host of an address: what follows the last `@` of the authority, a literal
in brackets, or what precedes the port. -/
def hostPart (addr : List Char) : List Char :=
  let authority := (afterScheme addr).takeWhile inAuthority
  let host := (authority.reverse.takeWhile (· ≠ '@')).reverse
  match host with
  | '[' :: cs => '[' :: (cs.takeWhile (· ≠ ']') ++ [']'])
  | cs => cs.takeWhile (· ≠ ':')

example : hostPart "https://me@GHCR.io:443/v2/".toList = "GHCR.io".toList ∧
    targetHostname "https://me@GHCR.io:443/v2/\n".toList = "GHCR.io".toList ∧
    hostPart "localhost:5000".toList = "localhost".toList ∧
    targetHostname "localhost:5000\n".toList = "localhost:5000".toList := by decide

/-! ## ordinary addresses -/

/-- A character of a scheme, of a user name or of a host. -/
def isWordChar (c : Char) : Bool := c.isAlphanum || c ∈ ['-', '.', '_', '+']

/-- A character that `read` takes as it is. -/
def isReadChar (c : Char) : Bool := !isIfs c && c ≠ '\\' && c ≠ Char.ofNat 0

/-- A character of what comes before the `@` of an authority. -/
def isUserChar (c : Char) : Bool := isReadChar c && inAuthority c && c ≠ '@'

/-- An ordinary address of a host: the bare host, or a URL, where a port and a
path may follow. -/
inductive IsAddress (host : List Char) : List Char → Prop
  | bare (hhost : host.all isWordChar) (hhead : host.head? ≠ some '-') : IsAddress host host
  | url {scheme rest : List Char} (hhost : host.all isWordChar) (hscheme : scheme.all isWordChar)
      (hread : rest.all isReadChar) (hrest : ∀ c ∈ rest.head?, c = ':' ∨ c = '/')
      (hat : '@' ∉ rest) : IsAddress host (scheme ++ ':' :: '/' :: '/' :: (host ++ rest))
  | user {scheme user rest : List Char} (hhost : host.all isWordChar)
      (hscheme : scheme.all isWordChar) (huser : user.all isUserChar)
      (hread : rest.all isReadChar) (hrest : ∀ c ∈ rest.head?, c = ':' ∨ c = '/')
      (hat : '@' ∉ rest.takeWhile inAuthority) :
      IsAddress host (scheme ++ ':' :: '/' :: '/' :: (user ++ '@' :: (host ++ rest)))

/-- A character of a word is none of the others. -/
theorem ne_of_isWordChar {c d : Char} (hc : isWordChar c) (hd : isWordChar d = false) : c ≠ d := by
  rintro rfl
  simp [hd] at hc

/-- A word has no such character. -/
theorem not_mem_of_word {d : Char} {cs : List Char} (h : cs.all isWordChar)
    (hd : isWordChar d = false) : d ∉ cs := fun hmem =>
  ne_of_isWordChar (List.all_eq_true.mp h d hmem) hd rfl

/-- A character of a word is read as it is. -/
theorem isReadChar_of_isWordChar {c : Char} (h : isWordChar c) : isReadChar c := by
  have hne (d : Char) (hd : isWordChar d = false) := ne_of_isWordChar h hd
  simp [isReadChar, isIfs, hne ' ' (by decide), hne '\t' (by decide), hne '\n' (by decide),
    hne '\\' (by decide), hne (Char.ofNat 0) (by decide)]

/-- So is a word. -/
theorem all_isReadChar {cs : List Char} (h : cs.all isWordChar) : cs.all isReadChar :=
  List.all_eq_true.mpr fun c hc => isReadChar_of_isWordChar (List.all_eq_true.mp h c hc)

/-- What is known of a character of a user name. -/
theorem of_isUserChar {c : Char} (h : isUserChar c) :
    isReadChar c ∧ inAuthority c ∧ c ≠ '@' := by
  simpa [isUserChar, and_assoc] using h

/-- A word is taken whole where its characters are. -/
theorem takeWhile_word {p : Char → Bool} {cs rest : List Char} (h : cs.all isWordChar)
    (hp : ∀ c, isWordChar c → p c) : (cs ++ rest).takeWhile p = cs ++ rest.takeWhile p :=
  List.takeWhile_append_of_pos fun c hc => hp c (List.all_eq_true.mp h c hc)

/-- It is dropped whole where they are. -/
theorem dropWhile_word {p : Char → Bool} {cs rest : List Char} (h : cs.all isWordChar)
    (hp : ∀ c, isWordChar c → p c) : (cs ++ rest).dropWhile p = rest.dropWhile p :=
  List.dropWhile_append_of_pos fun c hc => hp c (List.all_eq_true.mp h c hc)

/-! ## what the script extracts -/

/-- A text without backslashes is read character by character. -/
theorem readChars_append {cs tail : List Char} (h : cs.all isReadChar)
    (htail : ∀ c ∈ tail.head?, c = '\n') : readChars (cs ++ tail) = cs.map fun c => (c, false) := by
  induction cs with
  | nil =>
      cases tail with
      | nil => rfl
      | cons c tail =>
          obtain rfl := htail c rfl
          rw [List.nil_append, readChars]
          · simp
          · simp
  | cons c cs ih =>
      simp only [List.all_cons, Bool.and_eq_true] at h
      obtain ⟨hc, hcs⟩ := h
      simp only [isReadChar, isIfs, Bool.and_eq_true, Bool.not_eq_true', Bool.or_eq_false_iff,
        decide_eq_false_iff_not, decide_eq_true_eq] at hc
      rw [List.cons_append, readChars]
      · simp [hc, ih hcs]
      · simp [hc]

/-- There is nothing to drop where nothing separates. -/
theorem dropWhile_separator {l : List (Char × Bool)} (h : ∀ x ∈ l, isSeparator x = false) :
    l.dropWhile isSeparator = l := by
  cases l with
  | nil => rfl
  | cons x l => simp [h x List.mem_cons_self]

/-- A line without blanks, backslashes and NULs is read as it is. -/
theorem readVar_eq {stdin : List Char} (h : (address stdin).all isReadChar) :
    readVar stdin = address stdin := by
  have hsplit := List.takeWhile_append_dropWhile (p := (· ≠ '\n')) (l := stdin)
  have htail : ∀ c ∈ (stdin.dropWhile (· ≠ '\n')).head?, c = '\n' := by
    intro c hc
    have hhead := List.head?_dropWhile_not (· ≠ '\n') stdin
    rw [hc] at hhead
    simpa using hhead
  have hread := readChars_append h htail
  rw [address, hsplit, ← address] at hread
  have hnone : ∀ x ∈ readChars stdin, isSeparator x = false := by
    intro x hx
    rw [hread] at hx
    obtain ⟨c, hc, rfl⟩ := List.mem_map.mp hx
    have hchar := List.all_eq_true.mp h c hc
    simp only [isReadChar, Bool.and_eq_true, Bool.not_eq_true'] at hchar
    simp [isSeparator, hchar.1.1]
  rw [readVar, dropWhile_separator hnone,
    dropWhile_separator fun x hx => hnone x (List.mem_reverse.mp hx), List.reverse_reverse, hread,
    List.map_map]
  exact List.map_id _

/-- A URL is split behind the slashes of its scheme. -/
theorem splitSlashes_scheme {scheme : List Char} (h : scheme.all isWordChar) (rest : List Char) :
    splitSlashes (scheme ++ ':' :: '/' :: '/' :: rest) = some (scheme ++ [':'], rest) := by
  induction scheme with
  | nil => simp [splitSlashes]
  | cons c scheme ih =>
      simp only [List.all_cons, Bool.and_eq_true] at h
      rw [List.cons_append, splitSlashes]
      · simp [ih h.2]
      · exact fun _ hslash => absurd hslash (ne_of_isWordChar h.1 (by decide))

/-- A bare host has none. -/
theorem splitSlashes_word {cs : List Char} (h : cs.all isWordChar) : splitSlashes cs = none := by
  induction cs with
  | nil => rfl
  | cons c cs ih =>
      simp only [List.all_cons, Bool.and_eq_true] at h
      rw [splitSlashes]
      · simp [ih h.2]
      · exact fun _ hslash => absurd hslash (ne_of_isWordChar h.1 (by decide))

/-- What the script makes of a URL. -/
theorem extractHost_url {scheme : List Char} (h : scheme.all isWordChar) (rest : List Char) :
    extractHost (scheme ++ ':' :: '/' :: '/' :: rest) =
      (if '@' ∈ rest then (rest.dropWhile (· ≠ '@')).tail else rest).takeWhile
        fun c => c ≠ ':' && c ≠ '/' := by
  have hkept : (scheme ++ [':']).reverse.dropWhile (· ≠ '/') = [] := by
    rw [List.dropWhile_eq_nil_iff]
    intro c hc
    simp only [List.mem_reverse, List.mem_append, List.mem_singleton] at hc
    obtain hc | rfl := hc
    · simpa using ne_of_isWordChar (List.all_eq_true.mp h c hc) (d := '/') (by decide)
    · decide
  simp only [extractHost, splitSlashes_scheme h, hkept, List.reverse_nil, List.nil_append]

/-- Behind the host is the port or the path. -/
theorem takeWhile_host {host rest : List Char} (hhost : host.all isWordChar)
    (hrest : ∀ c ∈ rest.head?, c = ':' ∨ c = '/') :
    ((host ++ rest).takeWhile fun c => c ≠ ':' && c ≠ '/') = host := by
  rw [takeWhile_word hhost]
  · cases rest with
    | nil => simp
    | cons c rest => obtain rfl | rfl := hrest c rfl <;> simp
  · intro c hc
    simp [ne_of_isWordChar hc (d := ':') (by decide), ne_of_isWordChar hc (d := '/') (by decide)]

/-- Of an ordinary address, the script takes the host. -/
theorem extractHost_address {host addr : List Char} (h : IsAddress host addr) :
    extractHost addr = host := by
  cases h with
  | bare hhost _ => rw [extractHost, splitSlashes_word hhost]
  | url hhost hscheme _ hrest hat =>
      have hnone := not_mem_of_word hhost (d := '@') (by decide)
      rw [extractHost_url hscheme, if_neg (by simp [hnone, hat]), takeWhile_host hhost hrest]
  | user hhost hscheme huser _ hrest _ =>
      rw [extractHost_url hscheme, if_pos (by simp), List.dropWhile_append_of_pos,
        List.dropWhile_cons_of_neg, List.tail_cons, takeWhile_host hhost hrest]
      · simp
      · intro c hc
        simpa using (of_isUserChar (List.all_eq_true.mp huser c hc)).2.2

/-- An ordinary address is read as it is. -/
theorem isReadChar_address {host addr : List Char} (h : IsAddress host addr) :
    addr.all isReadChar := by
  have hcolon : isReadChar ':' := by decide
  have hslash : isReadChar '/' := by decide
  have hat : isReadChar '@' := by decide
  cases h with
  | bare hhost _ => exact all_isReadChar hhost
  | url hhost hscheme hread _ _ =>
      simp [List.all_append, all_isReadChar hhost, all_isReadChar hscheme, hread, hcolon, hslash]
  | user hhost hscheme huser hread _ _ =>
      have huser := List.all_eq_true.mpr fun c hc =>
        (of_isUserChar (List.all_eq_true.mp huser c hc)).1
      simp [List.all_append, all_isReadChar hhost, all_isReadChar hscheme, huser, hread, hcolon,
        hslash, hat]

/-- It is echoed as it is. -/
theorem passed_address {host addr : List Char} (h : IsAddress host addr) : passed addr = addr := by
  cases h with
  | bare _ hhead => exact passed_of_head? hhead
  | url => exact passed_of_mem (d := ':') (by simp) (by decide)
  | user => exact passed_of_mem (d := ':') (by simp) (by decide)

/-- The host of an ordinary address is a word. -/
theorem IsAddress.word {host addr : List Char} (h : IsAddress host addr) :
    host.all isWordChar := by
  cases h <;> assumption

/-- The script extracts the host of an ordinary address. -/
theorem targetHostname_address {host stdin : List Char} (h : IsAddress host (address stdin)) :
    targetHostname stdin = host := by
  have hread := isReadChar_address h
  have hline {cs : List Char} (hcs : cs.all isReadChar) : IsLine cs :=
    ⟨fun hmem => absurd (List.all_eq_true.mp hcs _ hmem) (by decide),
      fun hmem => absurd (List.all_eq_true.mp hcs _ hmem) (by decide)⟩
  have hextract : extractHost (passed (address stdin)) = host := by
    rw [passed_address h, extractHost_address h]
  rw [targetHostname, readVar_eq hread, capture_sed_echo (hline hread) (by decide), hextract]
  rw [hextract]
  exact hline (all_isReadChar h.word)

/-! ## the host part -/

/-- What follows the scheme of a URL. -/
theorem afterScheme_url {scheme : List Char} (h : scheme.all isWordChar) (rest : List Char) :
    afterScheme (scheme ++ ':' :: '/' :: '/' :: rest) = rest := by
  rw [afterScheme, dropWhile_word h]
  · simp
  · intro c hc
    simp [ne_of_isWordChar hc (d := ':') (by decide), ne_of_isWordChar hc (d := '/') (by decide)]

/-- A bare host has no scheme. -/
theorem afterScheme_word {cs : List Char} (h : cs.all isWordChar) : afterScheme cs = cs := by
  have hnil : (cs.dropWhile fun c => c ≠ ':' && c ≠ '/') = [] := by
    rw [List.dropWhile_eq_nil_iff]
    intro c hc
    have hword := List.all_eq_true.mp h c hc
    simp [ne_of_isWordChar hword (d := ':') (by decide),
      ne_of_isWordChar hword (d := '/') (by decide)]
  rw [afterScheme, hnil]

/-- The host and the port of an authority. -/
theorem hostPart_port {host port before addr : List Char} (hhost : host.all isWordChar)
    (hport : ∀ c ∈ port.head?, c = ':') (hat : '@' ∉ port)
    (hbefore : before.reverse.takeWhile (· ≠ '@') = [])
    (haddr : (afterScheme addr).takeWhile inAuthority = before ++ (host ++ port)) :
    hostPart addr = host := by
  have hlast : ((before ++ (host ++ port)).reverse.takeWhile (· ≠ '@')).reverse = host ++ port := by
    have hpass : ∀ c ∈ (host ++ port).reverse, decide (c ≠ '@') = true := by
      intro c hc
      obtain hc | hc := List.mem_append.mp (List.mem_reverse.mp hc)
      · simpa using ne_of_isWordChar (List.all_eq_true.mp hhost c hc) (d := '@') (by decide)
      · have hne : c ≠ '@' := fun heq => hat (heq ▸ hc)
        simpa using hne
    rw [List.reverse_append, List.takeWhile_append_of_pos hpass, hbefore, List.append_nil,
      List.reverse_reverse]
  have hcut : (host ++ port).takeWhile (· ≠ ':') = host := by
    rw [takeWhile_word hhost]
    · cases port with
      | nil => simp
      | cons c cs =>
          obtain rfl := hport c rfl
          simp
    · intro c hc
      simpa using ne_of_isWordChar hc (d := ':') (by decide)
  simp only [hostPart]
  rw [haddr, hlast]
  split
  · next cs hbracket =>
      cases host with
      | nil => exact absurd (hport '[' (by simp_all)) (by decide)
      | cons c host =>
          simp only [List.all_cons, Bool.and_eq_true] at hhost
          cases hbracket
          exact absurd hhost.1 (by decide)
  · exact hcut

/-- The host part of a URL. -/
theorem hostPart_url {host before rest addr : List Char} (hhost : host.all isWordChar)
    (hrest : ∀ c ∈ rest.head?, c = ':' ∨ c = '/') (hat : '@' ∉ rest.takeWhile inAuthority)
    (hbefore : before = [] ∨ ∃ user : List Char, user.all isUserChar ∧ before = user ++ ['@'])
    (haddr : afterScheme addr = before ++ (host ++ rest)) : hostPart addr = host := by
  have hin : ∀ c, isWordChar c → inAuthority c := by
    intro c hc
    simp [inAuthority, ne_of_isWordChar hc (d := '/') (by decide),
      ne_of_isWordChar hc (d := '?') (by decide), ne_of_isWordChar hc (d := '#') (by decide)]
  have hport : ∀ c ∈ (rest.takeWhile inAuthority).head?, c = ':' := by
    intro c hc
    cases rest with
    | nil => simp at hc
    | cons d rest =>
        obtain rfl | rfl := hrest d rfl <;> simp [inAuthority] at hc
        exact hc.symm
  have hnone : before.reverse.takeWhile (· ≠ '@') = [] := by
    obtain rfl | ⟨user, _, rfl⟩ := hbefore <;> simp
  refine hostPart_port hhost hport hat hnone ?_
  rw [haddr]
  obtain rfl | ⟨user, huser, rfl⟩ := hbefore
  · rw [List.nil_append, List.nil_append, takeWhile_word hhost hin]
  · have huser : ∀ c ∈ user, inAuthority c := fun c hc =>
      (of_isUserChar (List.all_eq_true.mp huser c hc)).2.1
    rw [List.append_assoc, List.append_assoc, List.takeWhile_append_of_pos huser,
      List.singleton_append, List.takeWhile_cons_of_pos (by decide), takeWhile_word hhost hin,
      List.singleton_append]

/-- The host part of an ordinary address. -/
theorem hostPart_address {host addr : List Char} (h : IsAddress host addr) :
    hostPart addr = host := by
  cases h with
  | bare hhost _ =>
      have hafter : afterScheme host = [] ++ (host ++ []) := by simp [afterScheme_word hhost]
      exact hostPart_url hhost (by simp) (by simp) (Or.inl rfl) hafter
  | url hhost hscheme _ hrest hat =>
      exact hostPart_url hhost hrest (fun hmem => hat ((List.takeWhile_sublist _).mem hmem))
        (Or.inl rfl) (afterScheme_url hscheme _)
  | user hhost hscheme huser _ hrest hat =>
      exact hostPart_url hhost hrest hat (Or.inr ⟨_, huser, rfl⟩)
        (by simp [afterScheme_url hscheme])

end Zebrafish.System.Credentials
