import Zebrafish.Lib.Sweep
import Zebrafish.Compose.Networks

/-!
# Zebrafish.Compose.Order

In which order the compose projects are started (`order_compose_projects` in
`etc/init.d/S64compose`).

The source sweeps over the projects that are left, and takes those whose
external networks are provided by the ones already taken; `loop_eq` says that
this is `Sweep.sweep`.  `ordered_projects` is what comes out.  The list goes
through a pipe to the caller, and through the words of an unquoted variable
from it: `projects_perm_iff` says when no project is lost on the way.
-/

namespace Zebrafish.Compose

open Shell

/-- A path of a compose file. -/
abbrev Path := List Char

/-! ## names of projects -/

/-- A path without slashes at its end. -/
def stripSlashes (p : Path) : Path := (p.reverse.dropWhile (· = '/')).reverse

def basename (p : Path) : Path :=
  if stripSlashes p = [] then p.take 1
  else ((stripSlashes p).reverse.takeWhile (· ≠ '/')).reverse

def dirname (p : Path) : Path :=
  if stripSlashes p = [] then (if p = [] then ['.'] else ['/'])
  else if '/' ∉ stripSlashes p then ['.']
  else
    let dir := stripSlashes ((stripSlashes p).reverse.dropWhile (· ≠ '/')).reverse
    if dir = [] then ['/'] else dir

/-- `echo "$1"`, which may take its argument for options. -/
def echo : List Char → List Char
  | '-' :: options =>
      if options ≠ [] ∧ options.all (· ∈ ['n', 'e', 'E']) then [] else '-' :: options
  | text => text

def projectName (dir : Path) : List Char :=
  let name := (basename dir).map Char.toLower
  echo (name.filter fun c => c.isLower || c.isDigit || c ∈ ['_', '-'])

/-! ## networks of projects -/

variable (content : Path → List Char)

/-- `while read -r net` over what `compose_networks` prints. -/
def readNetworks (file : Path) (want : String) : List (List Char) :=
  ((composeNetworks (content file) want).map fun net =>
    ((net.dropWhile isBlank).reverse.dropWhile isBlank).reverse).filter (· ≠ [])

/-- The networks a project creates, under the names they get. -/
def declared (file : Path) : List (List Char) :=
  (readNetworks content file "false").map fun net => projectName (dirname file) ++ '_' :: net

/-- The networks a project joins. -/
def joined (file : Path) : List (List Char) := readNetworks content file "true"

def networkSatisfied (allProjectNetworks orderedNetworks : List (List Char))
    (net : List Char) : Bool :=
  if orderedNetworks.any (· = net) then true
  else if allProjectNetworks.any (· = net) then false
  else true

/-! ## the loop -/

/-- The variables of one pass over the pending projects. -/
structure Pass where
  ordered : List Path
  networks : List (List Char)
  next : List Path
  progress : Bool

def Pass.visit (all : List (List Char)) (s : Pass) (file : Path) : Pass :=
  if (joined content file).all (networkSatisfied all s.networks) then
    { s with
      ordered := s.ordered ++ [file]
      progress := true
      networks := s.networks ++ declared content file }
  else { s with next := s.next ++ [file] }

/-- One pass. -/
def visitAll (all : List (List Char)) (ordered : List Path) (networks : List (List Char))
    (pending : List Path) : Pass :=
  pending.foldl (Pass.visit content all) ⟨ordered, networks, [], false⟩

/-- What is pending after a pass that made progress is less. -/
theorem length_next_visitAll (all : List (List Char)) (ordered : List Path)
    (networks : List (List Char)) (pending : List Path) :
    (visitAll content all ordered networks pending).next.length +
      (visitAll content all ordered networks pending).progress.toNat ≤ pending.length := by
  have hall : ∀ (files : List Path) (s : Pass),
      (files.foldl (Pass.visit content all) s).next.length +
        (files.foldl (Pass.visit content all) s).progress.toNat ≤
      s.next.length + s.progress.toNat + files.length := by
    intro files
    induction files with
    | nil => simp
    | cons file files ih =>
        intro s
        have hrest := ih (s.visit content all file)
        have hstep : (s.visit content all file).next.length +
            (s.visit content all file).progress.toNat ≤
            s.next.length + s.progress.toNat + 1 := by
          unfold Pass.visit
          split <;> simp
          omega
        simp only [List.foldl_cons, List.length_cons]
        omega
  simpa [visitAll] using hall pending ⟨ordered, networks, [], false⟩

def loop (all : List (List Char)) (ordered : List Path) (networks : List (List Char))
    (pending : List Path) (progress : Bool) : List Path × List Path :=
  if pending.length > 0 ∧ progress then
    let s := visitAll content all ordered networks pending
    loop all s.ordered s.networks s.next s.progress
  else (ordered, pending)
termination_by 2 * pending.length + progress.toNat
decreasing_by
  next h =>
    have hlen := length_next_visitAll content all ordered networks pending
    simp only [h.2, Bool.toNat_true]
    omega

def orderComposeProjects (files : List Path) : List Path :=
  let all := files.flatMap (declared content)
  let (ordered, pending) := loop content all [] [] files true
  ordered ++ pending

/-! ## sweeps -/

/-- A project is ready after some others. -/
def ready (all : List (List Char)) (ordered : List Path) (file : Path) : Bool :=
  (joined content file).all (networkSatisfied all (ordered.flatMap (declared content)))

/-- One pass of the source is one pass of the sweep. -/
theorem visitAll_eq (all : List (List Char)) (ordered pending : List Path) :
    visitAll content all ordered (ordered.flatMap (declared content)) pending =
      let p := Sweep.pass (ready content all) ordered pending
      ⟨p.1, p.1.flatMap (declared content), p.2, p.2.length < pending.length⟩ := by
  have hall : ∀ (files ordered next : List Path) (progress : Bool),
      files.foldl (Pass.visit content all)
          ⟨ordered, ordered.flatMap (declared content), next, progress⟩ =
        let p := Sweep.pass (ready content all) ordered files
        ⟨p.1, p.1.flatMap (declared content), next ++ p.2,
          progress || decide (p.2.length < files.length)⟩ := by
    intro files
    induction files with
    | nil => simp [Sweep.pass]
    | cons file files ih =>
        intro ordered next progress
        rw [List.foldl_cons, Pass.visit, Sweep.pass]
        cases hready : ready content all ordered file with
        | true =>
            have hsublist := Sweep.sublist_pass (ready content all) (ordered ++ [file]) files
            have hlen := hsublist.length_le
            have hrest := ih (ordered ++ [file]) next true
            rw [ready] at hready
            simp only [List.flatMap_append, List.flatMap_singleton] at hrest
            simp [hready, hrest, Nat.lt_succ_of_le hlen]
        | false =>
            rw [ready] at hready
            simp [hready, ih ordered (next ++ [file]) progress]
  simpa [visitAll] using hall pending ordered [] false

/-- The loop of the source sweeps. -/
theorem loop_eq (all : List (List Char)) (ordered pending : List Path) :
    loop content all ordered (ordered.flatMap (declared content)) pending true =
      Sweep.sweep (ready content all) ordered pending := by
  fun_induction Sweep.sweep (ready content all) ordered pending with
  | case1 ordered pending hlt ih =>
      rw [loop, if_pos ⟨Nat.zero_lt_of_lt hlt, rfl⟩, visitAll_eq]
      simp only [hlt, decide_true]
      exact ih
  | case2 ordered pending hlt =>
      have hstuck := (Sweep.pass_stuck (ready content all) (Nat.le_of_not_lt hlt)).1
      rw [loop, visitAll_eq, hstuck]
      split
      · simp [loop]
      · rfl

/-! ## what comes out -/

/-- A network some listed project declares. -/
def Known (files : List Path) (net : List Char) : Prop := ∃ g ∈ files, net ∈ declared content g

/-- A project is ready after a set of projects that declare the networks it
joins, those apart that no project declares. -/
def readiness (files : List Path) : Sweep.Rule files where
  toHom :=
    { toFun := fun s => {f | f ∈ files ∧ ∀ net ∈ joined content f, Known content files net →
        ∃ g ∈ s, net ∈ declared content g}
      monotone' := by
        rintro s t hst f ⟨hf, hall⟩
        refine ⟨hf, fun net hnet hknown => ?_⟩
        obtain ⟨g, hg, hdeclared⟩ := hall net hnet hknown
        exact ⟨g, hst hg, hdeclared⟩ }
  listed := fun _ _ h => h.1

/-- A project that provides a network another one joins has to come first. -/
def Provides (files : List Path) (g f : Path) : Prop :=
  g ∈ files ∧ f ∈ files ∧ ∃ net ∈ joined content f, net ∈ declared content g

/-- A network is waited for just if some project declares it. -/
theorem networkSatisfied_iff (all ordered : List (List Char)) (net : List Char) :
    networkSatisfied all ordered net = true ↔ (net ∈ all → net ∈ ordered) := by
  unfold networkSatisfied
  grind

/-- A project is ready when the networks it joins have their projects in front. -/
theorem ready_iff (files ordered : List Path) (file : Path) :
    ready content (files.flatMap (declared content)) ordered file = true ↔
      ∀ net ∈ joined content file, Known content files net →
        ∃ g ∈ ordered, net ∈ declared content g := by
  simp [ready, networkSatisfied_iff, Known]

/-- The test of the source is the rule of the fixed point. -/
theorem decides_ready (files : List Path) :
    (readiness content files).Decides (ready content (files.flatMap (declared content))) := by
  intro ordered file hfile
  rw [ready_iff]
  exact ⟨fun h => ⟨hfile, h⟩, And.right⟩

/-- The order is that of the sweep, and then what it leaves. -/
theorem orderComposeProjects_eq (files : List Path) :
    orderComposeProjects content files =
      (Sweep.sweep (ready content (files.flatMap (declared content))) [] files).1 ++
        (Sweep.sweep (ready content (files.flatMap (declared content))) [] files).2 := by
  have hloop := loop_eq content (files.flatMap (declared content)) [] files
  rw [List.flatMap_nil] at hloop
  rw [orderComposeProjects, hloop]

open Classical in
/-- **The order of the projects.**  First come the projects of the least fixed
point of `readiness`, all of them and none twice that is not listed twice, and
resolved: a network such a project joins and some project declares is declared
by one before it.  The others follow as they came, and are exactly the ones
outside of the fixed point; there are none if the projects provide for each
other without a cycle. -/
theorem ordered_projects (files : List Path) :
    ∃ resolved tail, orderComposeProjects content files = resolved ++ tail ∧
      resolved.Perm (files.filter fun f => decide (f ∈ (readiness content files).lfp)) ∧
      (∀ before file after, resolved = before ++ file :: after →
        ∀ net ∈ joined content file, Known content files net →
          ∃ g ∈ before, net ∈ declared content g) ∧
      tail = files.filter (fun f => decide (f ∉ (readiness content files).lfp)) ∧
      ((∀ f, ¬ Relation.TransGen (Provides content files) f f) → tail = []) := by
  have hdecides := decides_ready content files
  refine ⟨_, _, orderComposeProjects_eq content files, Sweep.Rule.sweep_done hdecides, ?_,
    Sweep.Rule.sweep_rest hdecides, ?_⟩
  · intro before file after hsplit
    rw [← ready_iff]
    exact Sweep.Chain.nil.sweep before file after hsplit
  · intro hacyclic
    have hall : ∀ f ∈ files, f ∈ (readiness content files).lfp := by
      refine Sweep.Rule.mem_lfp_of_acyclic ?_ hacyclic
      intro s f hf hbefore
      refine ⟨hf, ?_⟩
      rintro net hnet ⟨g, hg, hdeclared⟩
      exact ⟨g, hbefore g hg ⟨hg, hf, net, hnet, hdeclared⟩, hdeclared⟩
    rw [Sweep.Rule.sweep_rest hdecides, List.filter_eq_nil_iff]
    simpa using hall

/-- A project whose provider comes later in the list, and one that nobody can
provide for. -/
example :
    let content : Path → List Char := fun file =>
      if file = "/compose/caddy/docker-compose.yml".toList then
        "networks:\n  web_backend:\n    external: true\n".toList
      else if file = "/compose/we.b/docker-compose.yml".toList then
        "networks:\n  backend:\n".toList
      else "networks:\n  own:\n  loop_own:\n    external: true\n".toList
    joined content "/compose/caddy/docker-compose.yml".toList = ["web_backend".toList] ∧
      declared content "/compose/we.b/docker-compose.yml".toList = ["web_backend".toList] ∧
      declared content "/compose/loop/docker-compose.yml".toList = ["loop_own".toList] := by
  decide +kernel

/-! ## there and back -/

/-- `printf '%s\n'`, which prints one line even if it is given nothing. -/
def printf : List (List Char) → List Char
  | [] => ['\n']
  | args => unlines args

/-- `mapfile -t` -/
def mapfile (text : List Char) : List (List Char) := lines text

/-- `COMPOSE_PROJECTS`, from the paths `find` has printed: the words of the
unquoted variable they are in are expanded as patterns. -/
def composeProjects (expand : Path → List Path) (found : List Path) : List Path :=
  let composeFiles := capture (unlines found)
  let args := (words composeFiles).flatMap expand
  mapfile (printf (orderComposeProjects content args))

/-- A path without whitespace. -/
def IsPath (p : Path) : Prop := p ≠ [] ∧ ∀ c ∈ p, isSpace c = false ∧ c ≠ Char.ofNat 0

/-- Ordering loses no project and adds none. -/
theorem perm_orderComposeProjects (files : List Path) :
    (orderComposeProjects content files).Perm files := by
  rw [orderComposeProjects_eq]
  exact Sweep.perm_sweep _ [] files

/-- Names without newlines are read back from their lines. -/
theorem mapfile_printf {args : List (List Char)} (hne : args ≠ []) (h : ∀ w ∈ args, '\n' ∉ w) :
    mapfile (printf args) = args := by
  cases args with
  | nil => exact absurd rfl hne
  | cons w args => exact lines_unlines h

/-- A path without white space is not split. -/
theorem isIfs_of_not_isSpace {c : Char} (h : isSpace c = false) : isIfs c = false := by
  simp only [isSpace, List.mem_cons, decide_eq_false_iff_not, not_or] at h
  simp [isIfs, h.1, h.2.1, h.2.2.1]

/-- The list of the projects, from the paths that were found. -/
theorem composeProjects_eq (expand : Path → List Path) {found : List Path}
    (hpaths : ∀ p ∈ found, IsPath p) :
    composeProjects content expand found =
      mapfile (printf (orderComposeProjects content (found.flatMap expand))) := by
  have hwords : words (capture (unlines found)) = found := by
    refine words_capture_unlines ?_
    intro w hw
    obtain ⟨hne, hall⟩ := hpaths w hw
    exact ⟨hne, fun c hc => ⟨isIfs_of_not_isSpace (hall c hc).1, (hall c hc).2⟩⟩
  rw [composeProjects, hwords]

/-- **No project is lost.**  The projects that are worked on are those that were
found exactly when there are any, and the expansion of their paths as patterns
gives these paths back. -/
theorem projects_perm_iff (expand : Path → List Path) {found : List Path}
    (hpaths : ∀ p ∈ found, IsPath p) (hexpand : ∀ p ∈ found, ∀ w ∈ expand p, IsPath w) :
    (composeProjects content expand found).Perm found ↔
      found ≠ [] ∧ (found.flatMap expand).Perm found := by
  rw [composeProjects_eq content expand hpaths]
  have hperm := perm_orderComposeProjects content (found.flatMap expand)
  by_cases hargs : found.flatMap expand = []
  · -- nothing to print is one empty line
    have hempty :
        mapfile (printf (orderComposeProjects content (found.flatMap expand))) = [[]] := by
      rw [hargs] at hperm ⊢
      rw [hperm.eq_nil]
      decide
    rw [hempty, hargs]
    constructor
    · intro h
      have hnil : ([] : Path) ∈ found := h.subset (by simp)
      exact absurd rfl (hpaths _ hnil).1
    · rintro ⟨hne, h⟩
      exact absurd h.symm.eq_nil hne
  · have hlines : ∀ w ∈ orderComposeProjects content (found.flatMap expand), '\n' ∉ w := by
      intro w hw hmem
      obtain ⟨p, hp, hw⟩ := List.mem_flatMap.mp (hperm.mem_iff.mp hw)
      have hspace := ((hexpand p hp w hw).2 _ hmem).1
      simp [isSpace] at hspace
    have hne : orderComposeProjects content (found.flatMap expand) ≠ [] := by
      intro hnil
      rw [hnil] at hperm
      exact hargs hperm.symm.eq_nil
    rw [mapfile_printf hne hlines]
    have hfound : found ≠ [] := by
      rintro rfl
      exact hargs rfl
    simp only [hfound, ne_eq, not_false_eq_true, true_and]
    exact ⟨hperm.symm.trans, hperm.trans⟩

/-- No file has any networks. -/
def noNetworks : Path → List Char := fun _ => []

theorem projects_perm_two :
    (composeProjects noNetworks (fun p => [p])
      ["/compose/b/docker-compose.yml".toList, "/compose/a/docker-compose.yaml".toList]).Perm
      ["/compose/b/docker-compose.yml".toList, "/compose/a/docker-compose.yaml".toList] := by
  refine (projects_perm_iff noNetworks (fun p => [p]) ?_ ?_).mpr ⟨by simp, by simp⟩
  · simp [IsPath, isSpace]
  · simp [IsPath, isSpace]

/-- Without any compose file, there is a project without a name. -/
theorem nameless_project :
    composeProjects noNetworks (fun p => [p]) [] = [[]] ∧
      ¬ (composeProjects noNetworks (fun p => [p]) []).Perm [] := by
  have hone : composeProjects noNetworks (fun p => [p]) [] = [[]] := by
    rw [composeProjects_eq noNetworks _ (by simp), orderComposeProjects_eq]
    simp [Sweep.sweep, Sweep.pass, printf, mapfile, lines]
  rw [hone]
  simp

end Zebrafish.Compose
