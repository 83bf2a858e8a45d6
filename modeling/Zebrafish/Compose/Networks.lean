import Zebrafish.Lib.Lines

/-!
# Zebrafish.Compose.Networks

Which networks a compose file declares (`compose_networks` in
`etc/init.d/S64compose`).

The source is an `awk` program that goes over the file line by line, with the
network it is in and whether that one is external in two variables.  `scan` is
the same program when both kinds of networks are collected at once, and the
program prints what a scan has seen of one kind (`composeNetworks_eq`).
-/

namespace Zebrafish.Compose

open Shell

/-- `[[:space:]]`. -/
def isSpace (c : Char) : Bool := c ∈ [' ', '\t', '\n', Char.ofNat 11, Char.ofNat 12, '\r']

/-- What separates the fields of a line. -/
def isBlank (c : Char) : Bool := c = ' ' || c = '\t'

/-! ## the patterns -/

/-- `/^networks:[[:space:]]*$/` -/
def isNetworks (l : List Char) : Bool :=
  "networks:".toList.isPrefixOf l && (l.drop 9).all isSpace

/-- `/^[^[:space:]#]/` -/
def isTopLevel : List Char → Bool
  | c :: _ => !isSpace c && c ≠ '#'
  | [] => false

/-- `/^[[:space:]]*#/` -/
def isComment (l : List Char) : Bool := (l.dropWhile isSpace).head? = some '#'

/-- `/^[[:space:]]{2}[^[:space:]][^:]*:[[:space:]]*$/` -/
def isEntry : List Char → Bool
  | a :: b :: c :: rest =>
      isSpace a && isSpace b && !isSpace c &&
        match rest.dropWhile (· ≠ ':') with
        | _ :: rest => rest.all isSpace
        | [] => false
  | _ => false

/-- `/^[[:space:]]+external:[[:space:]]*true/` -/
def isExternal : List Char → Bool
  | c :: rest =>
      let key := rest.dropWhile isSpace
      isSpace c && "external:".toList.isPrefixOf key &&
        "true".toList.isPrefixOf ((key.drop 9).dropWhile isSpace)
  | [] => false

/-- `net = $1; sub(/:.*/, "", net)` -/
def entryName (l : List Char) : List Char :=
  ((l.dropWhile isBlank).takeWhile (!isBlank ·)).takeWhile (· ≠ ':')

/-! ## the program -/

/-- Its variables, and what it printed. -/
structure Awk where
  innets : Bool
  net : List Char
  ext : String
  out : List (List Char)

def Awk.flush (want : String) (s : Awk) : Awk :=
  { s with
    out := if s.net ≠ [] ∧ s.ext = want then s.out ++ [s.net] else s.out
    net := []
    ext := "false" }

def Awk.step (want : String) (s : Awk) (l : List Char) : Awk :=
  if isNetworks l then { s with innets := true }
  else if isTopLevel l then { s.flush want with innets := false }
  else if !s.innets then s
  else if isComment l then s
  else if isEntry l then { s.flush want with net := entryName l }
  else if isExternal l then { s with ext := "true" }
  else s

/-- `compose_networks`, of what is in the file. -/
def composeNetworks (text : List Char) (want : String) : List (List Char) :=
  (((lines text).foldl (Awk.step want) ⟨false, [], "", []⟩).flush want).out

/-! ## both kinds at once -/

/-- The same variables, and the networks left behind, with what `ext` was. -/
structure Scan where
  innets : Bool
  net : List Char
  ext : String
  seen : List (List Char × String)

def Scan.flush (s : Scan) : Scan :=
  { s with
    seen := if s.net ≠ [] then s.seen ++ [(s.net, s.ext)] else s.seen
    net := []
    ext := "false" }

def Scan.step (s : Scan) (l : List Char) : Scan :=
  if isNetworks l then { s with innets := true }
  else if isTopLevel l then { s.flush with innets := false }
  else if !s.innets then s
  else if isComment l then s
  else if isEntry l then { s.flush with net := entryName l }
  else if isExternal l then { s with ext := "true" }
  else s

def Scan.init : Scan := ⟨false, [], "", []⟩

def scan (ls : List (List Char)) : List (List Char × String) :=
  (ls.foldl Scan.step Scan.init).flush.seen

/-- The networks of a kind. -/
def only (want : String) (seen : List (List Char × String)) : List (List Char) :=
  (seen.filter fun p => p.2 = want).map Prod.fst

/-- What the program knows, of a scan. -/
def Scan.view (want : String) (s : Scan) : Awk := ⟨s.innets, s.net, s.ext, only want s.seen⟩

/-- Closing an entry, as one list sees it. -/
theorem Scan.view_flush (want : String) (s : Scan) :
    s.flush.view want = (s.view want).flush want := by
  unfold Scan.view Scan.flush Awk.flush
  by_cases hnet : s.net = [] <;> by_cases hext : s.ext = want <;> simp [hnet, hext, only]

/-- One line, as one list sees it. -/
theorem Scan.view_step (want : String) (s : Scan) (l : List Char) :
    (s.step l).view want = (s.view want).step want l := by
  have hflush := s.view_flush want
  unfold Scan.step Awk.step
  unfold Scan.view at hflush ⊢
  grind

/-- Each list is what one scan of the file has for it. -/
theorem composeNetworks_eq (text : List Char) (want : String) :
    composeNetworks text want = only want (scan (lines text)) := by
  have hrun : ∀ (ls : List (List Char)) (s : Scan),
      (ls.foldl Scan.step s).view want = ls.foldl (Awk.step want) (s.view want) := by
    intro ls
    induction ls with
    | nil => simp
    | cons l ls ih => simp [ih, Scan.view_step]
  have hend := (lines text).foldl Scan.step Scan.init |>.view_flush want
  rw [hrun] at hend
  have hout := congrArg Awk.out hend
  simpa [composeNetworks, scan, Scan.view, Scan.init, only] using hout.symm

end Zebrafish.Compose
