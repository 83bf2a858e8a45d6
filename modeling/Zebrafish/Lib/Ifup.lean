import Zebrafish.Lib.Lines

/-!
# Ifup

Files of `ifup`: `auto` lines name the interfaces that are brought up at boot,
and an `iface` line begins the description of one, followed by its options.

A file is read line by line, given the words of every line.  Descriptions that
are written (`Iface.lines`) are read back (`foldlM_ifaces`), wherever they stand.
-/

namespace Ifup

open Shell (words isIfs words_append words_of_ne_nil)

abbrev Word : Type := List Char

structure Iface where
  name : Word
  family : Word
  method : Word
  options : List (Word × List Word)
deriving DecidableEq

structure Interfaces where
  autos : List Word
  ifaces : List Iface
deriving DecidableEq

/-! ## reading -/

/-- What has been read so far, and the description that is being read. -/
structure Reader where
  autos : List Word
  done : List Iface
  current : Option Iface

namespace Reader

def start : Reader := ⟨[], [], none⟩

def ifaces (r : Reader) : List Iface := r.done ++ r.current.toList

/-- One line.  Options have a value, and are given once. -/
def step (r : Reader) : List Word → Option Reader
  | [] => some r
  | key :: args =>
      if key.head? = some '#' then some r
      else if key = "auto".toList then some ⟨r.autos ++ args, r.ifaces, none⟩
      else if key = "iface".toList then
        match args with
        | [name, family, method] => some ⟨r.autos, r.ifaces, some ⟨name, family, method, []⟩⟩
        | _ => none
      else
        match r.current with
        | some i =>
            if args.isEmpty || i.options.any (fun o => o.1 == key) then none
            else some { r with current := some { i with options := i.options ++ [(key, args)] } }
        | none => none

end Reader

/-- The interfaces of a file, given the words of its lines.  A line is not
continued by a backslash here. -/
def read (rows : List (List Word)) : Option Interfaces :=
  (rows.foldlM Reader.step .start).map fun r => ⟨r.autos, r.ifaces⟩

/-! ## writing -/

def optionLine (o : Word × List Word) : List Char :=
  "    ".toList ++ (o.1 ++ ' ' :: [' '].intercalate o.2)

/-- The lines of a description. -/
def Iface.lines (i : Iface) : List (List Char) :=
  [' '].intercalate ["iface".toList, i.name, i.family, i.method] :: i.options.map optionLine

/-- Their words. -/
def Iface.rows (i : Iface) : List (List Word) :=
  ["iface".toList, i.name, i.family, i.method] :: i.options.map fun o => o.1 :: o.2

def IsWord (w : Word) : Prop := w ≠ [] ∧ ∀ c ∈ w, isIfs c = false

/-- A word that names an option. -/
structure IsKey (key : Word) : Prop where
  word : IsWord key
  hash : key.head? ≠ some '#'
  auto : key ≠ "auto".toList
  iface : key ≠ "iface".toList

instance (w : Word) : Decidable (IsWord w) :=
  decidable_of_iff (w ≠ [] ∧ w.all (!isIfs ·)) (by simp [IsWord])

instance (key : Word) : Decidable (IsKey key) :=
  decidable_of_iff
    (IsWord key ∧ key.head? ≠ some '#' ∧ key ≠ "auto".toList ∧ key ≠ "iface".toList)
    ⟨fun h => ⟨h.1, h.2.1, h.2.2.1, h.2.2.2⟩, fun h => ⟨h.word, h.hash, h.auto, h.iface⟩⟩

/-- A description that can be written. -/
structure Iface.Proper (i : Iface) : Prop where
  head : ∀ w ∈ [i.name, i.family, i.method], IsWord w
  keys : ∀ o ∈ i.options, IsKey o.1
  values : ∀ o ∈ i.options, o.2 ≠ [] ∧ ∀ w ∈ o.2, IsWord w
  nodup : (i.options.map Prod.fst).Nodup

/-- Words with blanks between them are these words. -/
theorem words_intercalate {ws : List Word} (h : ∀ w ∈ ws, IsWord w) :
    words ([' '].intercalate ws) = ws := by
  rw [words, Shell.filter_splitOnP_intercalate (by decide) fun w hw => (h w hw).2,
    List.filter_eq_self]
  intro w hw
  simpa using (h w hw).1

/-- The words of a line with an option. -/
theorem words_optionLine {o : Word × List Word} (hkey : IsWord o.1) (hargs : ∀ w ∈ o.2, IsWord w) :
    words (optionLine o) = o.1 :: o.2 := by
  have hblanks : ∀ cs : List Char, words ("    ".toList ++ cs) = words cs := by
    intro cs
    have hblank : ∀ cs : List Char, words (' ' :: cs) = words cs := fun cs => by
      have hsplit := words_append (c := ' ') (by decide) [] cs
      simpa using hsplit
    simp [hblank]
  rw [optionLine, hblanks, words_append (by decide), words_of_ne_nil hkey.1 hkey.2,
    words_intercalate hargs, List.singleton_append]

/-- **Words come back** from the lines of a description. -/
theorem Iface.Proper.map_words {i : Iface} (h : i.Proper) : i.lines.map words = i.rows := by
  have hhead : ∀ w ∈ ["iface".toList, i.name, i.family, i.method], IsWord w := by
    intro w hw
    rcases List.mem_cons.mp hw with rfl | hw
    · decide
    · exact h.head w hw
  rw [Iface.lines, Iface.rows, List.map_cons, words_intercalate hhead, List.map_map]
  congr 1
  refine List.map_congr_left fun o ho => ?_
  exact words_optionLine (h.keys o ho).word (h.values o ho).2

/-- What no word has, but for blanks, no line has. -/
theorem Iface.not_mem_lines {d : Char} (hd : d ≠ ' ') {i : Iface}
    (h : ∀ w ∈ i.rows.flatten, d ∉ w) : ∀ l ∈ i.lines, d ∉ l := by
  rw [Iface.rows, List.flatten_cons, List.forall_mem_append] at h
  intro l hl
  rcases List.mem_cons.mp hl with rfl | hl
  · exact Shell.not_mem_intercalate h.1 hd
  · obtain ⟨o, ho, rfl⟩ := List.mem_map.mp hl
    have hwords : ∀ w ∈ o.1 :: o.2, d ∉ w := fun w hw =>
      h.2 w (List.mem_flatten.mpr ⟨_, List.mem_map_of_mem ho, hw⟩)
    obtain ⟨hkey, hargs⟩ := List.forall_mem_cons.mp hwords
    simp [optionLine, hd, hkey, Shell.not_mem_intercalate hargs hd]

/-- All that is written for an interface is words. -/
theorem Iface.Proper.isWord {i : Iface} (h : i.Proper) : ∀ w ∈ i.rows.flatten, IsWord w := by
  rw [Iface.rows, List.flatten_cons, List.forall_mem_append]
  refine ⟨List.forall_mem_cons.mpr ⟨by decide, h.head⟩, ?_⟩
  intro w hw
  obtain ⟨row, hrow, hw⟩ := List.mem_flatten.mp hw
  obtain ⟨o, ho, rfl⟩ := List.mem_map.mp hrow
  rcases List.mem_cons.mp hw with rfl | hw
  · exact (h.keys o ho).word
  · exact (h.values o ho).2 w hw

/-! ## reading it back -/

/-- Reading the options of an interface, one line each. -/
theorem foldlM_options {options : List (Word × List Word)} (hkeys : ∀ o ∈ options, IsKey o.1)
    (hvalues : ∀ o ∈ options, o.2 ≠ []) {r : Reader} {i : Iface} (hi : r.current = some i)
    (hnodup : ((i.options ++ options).map Prod.fst).Nodup) :
    (options.map fun o => o.1 :: o.2).foldlM Reader.step r =
      some { r with current := some { i with options := i.options ++ options } } := by
  induction options generalizing r i with
  | nil => simp [← hi]
  | cons o options ih =>
      obtain ⟨hkey, hkeys⟩ := List.forall_mem_cons.mp hkeys
      obtain ⟨hvalue, hvalues⟩ := List.forall_mem_cons.mp hvalues
      have hnew : ∀ p ∈ i.options, p.1 ≠ o.1 := by
        intro p hp heq
        rw [List.map_append, List.nodup_append] at hnodup
        exact hnodup.2.2 p.1 (List.mem_map_of_mem hp) o.1 (by simp) heq
      have hfresh : (o.2.isEmpty || i.options.any fun p => p.1 == o.1) = false := by
        simpa [hvalue] using hnew
      have hstep : r.step (o.1 :: o.2) =
          some { r with current := some { i with options := i.options ++ [o] } } := by
        simp only [Reader.step, if_neg hkey.hash, if_neg hkey.auto, if_neg hkey.iface, hi, hfresh]
        rfl
      rw [List.map_cons, List.foldlM_cons, hstep, Option.bind_eq_bind, Option.bind_some,
        ih hkeys hvalues rfl (by simpa using hnodup)]
      simp

/-- A description is read, whatever stands before it. -/
theorem Iface.Proper.foldlM_rows {i : Iface} (h : i.Proper) (r : Reader) :
    i.rows.foldlM Reader.step r = some ⟨r.autos, r.ifaces, some i⟩ := by
  have hstep : r.step ["iface".toList, i.name, i.family, i.method] =
      some ⟨r.autos, r.ifaces, some ⟨i.name, i.family, i.method, []⟩⟩ := by
    rw [Reader.step, if_neg (by decide), if_neg (by decide), if_pos rfl]
  rw [Iface.rows, List.foldlM_cons, hstep, Option.bind_eq_bind, Option.bind_some,
    foldlM_options h.keys (fun o ho => (h.values o ho).1) rfl (by simpa using h.nodup)]
  rfl

/-- **Descriptions are read**, one after the other. -/
theorem foldlM_ifaces {is : List Iface} (h : ∀ i ∈ is, i.Proper) (r : Reader) :
    ∃ r', (is.flatMap Iface.rows).foldlM Reader.step r = some r' ∧ r'.autos = r.autos ∧
      r'.ifaces = r.ifaces ++ is := by
  induction is generalizing r with
  | nil => exact ⟨r, rfl, rfl, by simp⟩
  | cons i is ih =>
      obtain ⟨hi, his⟩ := List.forall_mem_cons.mp h
      obtain ⟨r', hread, hautos, hifaces⟩ := ih his ⟨r.autos, r.ifaces, some i⟩
      refine ⟨r', ?_, hautos, ?_⟩
      · rw [List.flatMap_cons, List.foldlM_append, hi.foldlM_rows, Option.bind_eq_bind,
          Option.bind_some, hread]
      · rw [hifaces]
        simp [Reader.ifaces]

end Ifup
