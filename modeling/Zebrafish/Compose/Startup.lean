import Zebrafish.Compose.Service

/-!
# Zebrafish.Compose.Startup

What a start of the compose projects achieves.

`Docker` is the ideal docker: it creates a project exactly when the networks
the project joins are there, and with it the networks the project declares.
Then the projects created are those of the least fixed point of `readiness`
(`start_creates`), and no other order of them creates more.
-/

namespace Zebrafish.Compose

open Script (Event History World Always wp)

section

variable {rely guar : Event Ans → History Ans → Prop} {h : History Ans}

/-- One command: whatever it may answer, what it guarantees and what follows. -/
@[simp] theorem wp_sh {c : Cmd} {Q : Ans c → History Ans → Prop} :
    @wp Cmd Ans (no_index (Ans c)) rely guar (sh c) Q h ↔
      ∀ r, rely ⟨c, r⟩ h → guar ⟨c, r⟩ h ∧ Q r (⟨c, r⟩ :: h) := Script.wp_command

/-- Commands before the projects are gone through. -/
def isSetup : Cmd → Bool
  | .nerdctlVersion | .sleep | .isDataDir | .hasMarker | .dockerPs | .dockerRm _ | .touchMarker
  | .find => true
  | _ => false

/-- Waiting for containerd runs two commands only. -/
theorem only_waitForContainerd {P : Cmd → Prop} (hversion : P .nerdctlVersion) (hsleep : P .sleep)
    (n : Nat) : (waitForContainerd n).Only P := by
  induction n with
  | zero => exact Script.only_pure false
  | succ n ih =>
      refine Script.Only.bind (Script.only_command.mpr hversion) fun ok => ?_
      split
      · exact Script.only_pure true
      · exact Script.Only.bind (Script.only_command.mpr hsleep) fun _ => ih

/-- Dropping leftovers creates and starts nothing. -/
theorem only_dropOrphans : dropOrphans.Only fun c => isSetup c = true := by
  refine Script.Only.bind (Script.only_command.mpr rfl) fun marked => ?_
  split
  · exact Script.only_pure ()
  · refine Script.Only.bind (Script.only_command.mpr rfl) fun orphaned => ?_
    dsimp only
    split
    · exact Script.only_command.mpr rfl
    · exact Script.Only.bind (Script.only_command.mpr rfl) fun _ => Script.only_command.mpr rfl

end

/-! ## the ideal docker -/

/-- The folders `docker compose` was run in, and how that went. -/
def composed (verb : Verb) : History Ans → List (Path × Bool)
  | [] => []
  | ⟨.compose v dir, ok⟩ :: h => if v = verb then (dir, ok) :: composed verb h else composed verb h
  | _ :: h => composed verb h

def Ran (verb : Verb) (h : History Ans) (file : Path) : Prop :=
  dirname file ∈ (composed verb h).map Prod.fst

def Created (h : History Ans) (file : Path) : Prop := (dirname file, true) ∈ composed .create h

/-- The compose files are there, and their folders can be entered. -/
def Found (found : List Path) : Event Ans → History Ans → Prop
  | ⟨.isDataDir, r⟩, _ => r = true
  | ⟨.find, r⟩, _ => r = found
  | ⟨.cd _, r⟩, _ => r = true
  | _, _ => True

variable (content : Path → List Char) (found : List Path) (present : List Char → Prop)

/-- The networks that were there at first, and those that came with projects. -/
def HasNetwork (h : History Ans) (net : List Char) : Prop :=
  present net ∨ ∃ g ∈ found, Created h g ∧ net ∈ declared content g

def Docker : Event Ans → History Ans → Prop
  | ⟨.compose .create dir, ok⟩, h => ∀ f ∈ found, dirname f = dir →
      (ok = true ↔ ∀ net ∈ joined content f, HasNetwork content found present h net)
  | e, h => Found found e h

/-- Networks that no project declares are there, and no others. -/
structure Fresh : Prop where
  external : ∀ f ∈ found, ∀ net ∈ joined content f, ¬ Known content found net → present net
  own : ∀ net, Known content found net → ¬ present net

/-- Each of the projects has a folder of its own. -/
def OwnFolders : Prop := (found.map dirname).Nodup

/-- A project is created before any is started. -/
def CreatedFirst : Event Ans → History Ans → Prop
  | ⟨.compose .start _, _⟩, h => ∀ f ∈ found, Ran .create h f
  | _, _ => True

variable {content found present} {h : History Ans}

/-- Projects in one folder are one project. -/
theorem OwnFolders.inj (hdirs : OwnFolders found) {f g : Path} (hf : f ∈ found) (hg : g ∈ found)
    (hdir : dirname f = dirname g) : f = g := List.inj_on_of_nodup_map hdirs hf hg hdir

/-! ## one project after the other -/

@[simp] theorem composed_compose (verb v : Verb) (dir : Path) (ok : Bool) :
    composed verb (⟨.compose v dir, ok⟩ :: h) =
      if v = verb then (dir, ok) :: composed verb h else composed verb h := rfl

@[simp] theorem composed_cd (verb : Verb) (dir : Path) (ok : Bool) :
    composed verb (⟨.cd dir, ok⟩ :: h) = composed verb h := rfl

/-- Other commands tell no project anything. -/
theorem composed_setup (verb : Verb) {e : Event Ans} (he : isSetup e.1 = true) :
    composed verb (e :: h) = composed verb h := by
  obtain ⟨c, r⟩ := e
  cases c <;> first | rfl | cases he

/-- What one more project has to keep, where folders can be entered. -/
theorem wp_inFolders {rely guar : Event Ans → History Ans → Prop} {verb : Verb} {order : List Path}
    {I : List Path → History Ans → Prop}
    (hcd : ∀ dir ok h, rely ⟨.cd dir, ok⟩ h → ok = true ∧ guar ⟨.cd dir, ok⟩ h)
    (hstep : ∀ before f after h, order = before ++ f :: after → I before h → ∀ ok,
      rely ⟨.compose verb (dirname f), ok⟩ (⟨.cd (dirname f), true⟩ :: h) →
        guar ⟨.compose verb (dirname f), ok⟩ (⟨.cd (dirname f), true⟩ :: h) ∧
          I (before ++ [f]) (⟨.compose verb (dirname f), ok⟩ :: ⟨.cd (dirname f), true⟩ :: h))
    (hinit : I [] h) : wp rely guar (inFolders verb order) (fun _ => I order) h := by
  refine Script.wp_forEach (fun before f after h hsplit hI => ?_) hinit
  rw [inFolder, Script.wp_bind, wp_sh]
  intro entered hentered
  obtain ⟨rfl, hguar⟩ := hcd _ _ _ hentered
  refine ⟨hguar, ?_⟩
  rw [if_pos rfl, Script.wp_bind, wp_sh]
  intro ok hok
  exact hstep before f after h hsplit hI ok hok

/-! ## what is created -/

/-- Among the projects gone through, the ready ones are created. -/
structure Creating (content : Path → List Char) (found visited : List Path) (h : History Ans) :
    Prop where
  created : ∀ f ∈ found, Created h f ↔ f ∈ visited ∧ f ∈ (readiness content found).lfp
  ran : ∀ f ∈ visited, Ran .create h f

/-- What is inside the least fixed point, by the rule. -/
theorem mem_lfp_iff {f : Path} : f ∈ (readiness content found).lfp ↔
    f ∈ found ∧ ∀ net ∈ joined content f, Known content found net →
      ∃ g ∈ (readiness content found).lfp, net ∈ declared content g := by
  conv_lhs => rw [← Sweep.Rule.map_lfp]
  rfl

/-- Where only ready projects were created, only ready ones can be. -/
theorem ready_of_hasNetwork (hfresh : Fresh content found present)
    (hcreated : ∀ g ∈ found, Created h g → g ∈ (readiness content found).lfp) {f : Path}
    (hf : f ∈ found) (hnets : ∀ net ∈ joined content f, HasNetwork content found present h net) :
    f ∈ (readiness content found).lfp := by
  refine mem_lfp_iff.mpr ⟨hf, fun net hnet hknown => ?_⟩
  obtain hpresent | ⟨g, hg, hmade, hdeclared⟩ := hnets net hnet
  · exact absurd hpresent (hfresh.own net hknown)
  · exact ⟨g, hcreated g hg hmade, hdeclared⟩

/-- The list of projects, up to a ready one. -/
theorem split_resolved (hnodup : found.Nodup) {before after : List Path} {f : Path}
    (hsplit : orderComposeProjects content found = before ++ f :: after)
    (hf : f ∈ (readiness content found).lfp) :
    ∀ net ∈ joined content f, Known content found net →
      ∃ g ∈ before, g ∈ found ∧ g ∈ (readiness content found).lfp ∧ net ∈ declared content g := by
  have hdecides := decides_ready content found
  have hresolved := Sweep.Rule.mem_sweep_iff hdecides
  have horder := (perm_orderComposeProjects content found).nodup_iff.mpr hnodup
  rw [orderComposeProjects_eq] at hsplit horder
  obtain ⟨-, -, hapart⟩ := List.nodup_append.mp horder
  have hmem := (hresolved f).mpr hf
  obtain ⟨after', hfront⟩ : ∃ after',
      (Sweep.sweep (ready content (found.flatMap (declared content))) [] found).1 =
        before ++ f :: after' := by
    obtain ⟨mid, hleft, hright⟩ | ⟨mid, hleft, hright⟩ := List.append_eq_append_iff.mp hsplit
    · exact absurd rfl (hapart f hmem f (by rw [hright]; simp))
    · cases mid with
      | nil =>
          rw [List.nil_append] at hright
          exact absurd rfl (hapart f hmem f (by rw [← hright]; simp))
      | cons x mid =>
          obtain ⟨rfl, -⟩ := List.cons.inj hright
          exact ⟨mid, hleft⟩
  have hready : ready content (found.flatMap (declared content)) before f = true :=
    Sweep.Chain.nil.sweep before f after' hfront
  intro net hnet hknown
  obtain ⟨g, hg, hdeclared⟩ := (ready_iff content found before f).mp hready net hnet hknown
  have hlfp : g ∈ (readiness content found).lfp := (hresolved g).mp (by rw [hfront]; simp [hg])
  exact ⟨g, hg, (mem_lfp_iff.mp hlfp).1, hlfp, hdeclared⟩

/-- Whatever the order, only ready projects are created. -/
theorem wp_create_ready (hfresh : Fresh content found present) (hdirs : OwnFolders found)
    {order : List Path} (horder : ∀ f ∈ order, f ∈ found) {guar : Event Ans → History Ans → Prop}
    (hguar : ∀ e h, guar e h)
    (hinit : ∀ g ∈ found, Created h g → g ∈ (readiness content found).lfp) :
    wp (Docker content found present) guar (inFolders .create order)
      (fun _ h => ∀ g ∈ found, Created h g → g ∈ (readiness content found).lfp) h := by
  refine wp_inFolders (I := fun _ h => ∀ g ∈ found, Created h g → g ∈ (readiness content found).lfp)
    (fun dir ok h hok => ⟨hok, hguar _ _⟩) (fun before f after h hsplit hI ok hok => ?_) hinit
  refine ⟨hguar _ _, fun g hg hmade => ?_⟩
  have hf : f ∈ found := horder f (by simp [hsplit])
  simp only [Created, composed_compose, composed_cd, if_pos, List.mem_cons, Prod.mk.injEq] at hmade
  obtain ⟨hdir, hok'⟩ | hmade := hmade
  · rw [hdirs.inj hg hf hdir]
    exact ready_of_hasNetwork hfresh hI hf ((hok f hf rfl).mp hok'.symm)
  · exact hI g hg hmade

/-- In the order of the source, all ready projects are. -/
theorem wp_create (hfresh : Fresh content found present) (hdirs : OwnFolders found)
    {guar : Event Ans → History Ans → Prop} (hguar : ∀ dir ok h, guar ⟨.cd dir, ok⟩ h)
    (hguar' : ∀ dir ok h, guar ⟨.compose .create dir, ok⟩ h) (hinit : composed .create h = []) :
    wp (Docker content found present) guar
      (inFolders .create (orderComposeProjects content found))
      (fun _ => Creating content found (orderComposeProjects content found)) h := by
  have hperm := perm_orderComposeProjects content found
  have hnodup : found.Nodup := List.Nodup.of_map dirname hdirs
  refine wp_inFolders (fun dir ok h hok => ⟨hok, hguar dir ok h⟩)
    (fun before f after h hsplit hI ok hok => ⟨hguar' _ _ _, ?_, ?_⟩) ⟨?_, by simp⟩
  · intro g hg
    have hf : f ∈ found := hperm.mem_iff.mp (by simp [hsplit])
    have hready : ok = true ↔ f ∈ (readiness content found).lfp := by
      rw [hok f hf rfl]
      constructor
      · exact ready_of_hasNetwork hfresh (fun g hg hmade => ((hI.created g hg).mp hmade).2) hf
      · intro hlfp net hnet
        by_cases hknown : Known content found net
        · obtain ⟨g, hbefore, hg, hready, hdeclared⟩ :=
            split_resolved hnodup hsplit hlfp net hnet hknown
          exact Or.inr ⟨g, hg, (hI.created g hg).mpr ⟨hbefore, hready⟩, hdeclared⟩
        · exact Or.inl (hfresh.external f hf net hnet hknown)
    have hdir : dirname g = dirname f ↔ g = f :=
      ⟨hdirs.inj hg hf, fun heq => by rw [heq]⟩
    have hbefore := hI.created g hg
    simp only [Created] at hbefore
    simp only [Created, composed_compose, composed_cd, if_pos, List.mem_cons, Prod.mk.injEq, hdir,
      hbefore, List.mem_append]
    grind
  · intro g hg
    simp only [Ran, composed_compose, composed_cd, if_pos, List.map_cons, List.mem_cons]
    obtain hg | hg := List.mem_append.mp hg
    · exact Or.inr (hI.ran g hg)
    · exact Or.inl (by rw [List.mem_singleton.mp hg])
  · simp [Created, hinit]

/-! ## a start -/

/-- Once all are created, all are started. -/
theorem wp_start {order : List Path} (hall : ∀ f ∈ found, f ∈ order)
    (hinit : Creating content found order h) :
    wp (Docker content found present) (CreatedFirst found) (inFolders .start order)
      (fun _ h => Creating content found order h ∧ ∀ f ∈ order, Ran .start h f) h := by
  refine wp_inFolders
    (I := fun before h => Creating content found order h ∧ ∀ f ∈ before, Ran .start h f)
    (fun dir ok h hok => ⟨hok, trivial⟩) (fun before f after h hsplit hI ok hok => ?_)
    ⟨hinit, by simp⟩
  refine ⟨fun g hg => hI.1.ran g (hall g hg), ⟨hI.1.created, hI.1.ran⟩, fun g hg => ?_⟩
  simp only [Ran, composed_compose, composed_cd, if_pos, List.map_cons, List.mem_cons]
  obtain hg | hg := List.mem_append.mp hg
  · exact Or.inr (hI.2 g hg)
  · exact Or.inl (by rw [List.mem_singleton.mp hg])

/-- A start, under an ideal docker. -/
theorem wp_doStart {expand : Path → List Path} (hne : found ≠ []) (hpaths : ∀ p ∈ found, IsPath p)
    (hexpand : ∀ p ∈ found, expand p = [p]) (hdirs : OwnFolders found)
    (hfresh : Fresh content found present) :
    wp (Docker content found present) (CreatedFirst found) (doStart content expand)
      (fun _ h => Creating content found (orderComposeProjects content found) h ∧
        ∀ f ∈ orderComposeProjects content found, Ran .start h f) [] := by
  have hsetup : ∀ (e : Event Ans) h, isSetup e.1 = true → Docker content found present e h →
      composed .create h = [] → CreatedFirst found e h ∧ composed .create (e :: h) = [] := by
    intro e h he _ hnone
    refine ⟨?_, (composed_setup .create he).trans hnone⟩
    obtain ⟨c, r⟩ := e
    cases c <;> trivial
  have hwait : (waitForContainerd 5).Only fun c => isSetup c = true :=
    only_waitForContainerd (P := fun c => isSetup c = true) rfl rfl 5
  have hlist := composeProjects_plain content hne hpaths hexpand
  have hperm := perm_orderComposeProjects content found
  rw [doStart, Script.wp_bind]
  have hnone : composed .create [] = [] := rfl
  refine Script.wp_mono (Script.wp_of_only hsetup hwait hnone) fun _ h₁ h₁I => ?_
  rw [Script.wp_bind, wp_sh]
  intro there hthere
  obtain ⟨hguar, h₂I⟩ := hsetup ⟨.isDataDir, there⟩ h₁ rfl hthere h₁I
  refine ⟨hguar, ?_⟩
  rw [show there = true from hthere, if_pos rfl, Script.wp_bind]
  refine Script.wp_mono (Script.wp_of_only hsetup only_dropOrphans h₂I) fun _ h₃ h₃I => ?_
  rw [Script.wp_bind, wp_sh]
  intro paths hfound
  obtain ⟨hguar, h₄I⟩ := hsetup ⟨.find, paths⟩ h₃ rfl hfound h₃I
  refine ⟨hguar, ?_⟩
  rw [show paths = found from hfound, hlist, Script.wp_bind]
  refine Script.wp_mono (wp_create hfresh hdirs (fun _ _ _ => trivial) (fun _ _ _ => trivial)
    (hfound ▸ h₄I)) fun _ h₅ h₅I => ?_
  rw [Script.wp_bind]
  exact wp_start (fun f hf => hperm.mem_iff.mpr hf) h₅I

variable (content) in
/-- What a start does, the newest event first. -/
def started (expand : Path → List Path) (w : World Ans) : History Ans :=
  ((doStart content expand).run w []).2

/-- **A start creates what can be created.**  Under an ideal docker it creates
the projects of the least fixed point, and no order of them creates others; it
starts every project, but none before it has tried to create them all. -/
theorem start_creates {expand : Path → List Path} (hne : found ≠ [])
    (hpaths : ∀ p ∈ found, IsPath p) (hexpand : ∀ p ∈ found, expand p = [p])
    (hdirs : OwnFolders found) (hfresh : Fresh content found present) (w : World Ans)
    (hdocker : Always (Docker content found present) (started content expand w)) :
    (∀ f ∈ found, Created (started content expand w) f ↔ f ∈ (readiness content found).lfp) ∧
      (∀ (order : List Path) (w' : World Ans), (∀ f ∈ order, f ∈ found) →
        Always (Docker content found present) ((inFolders .create order).run w' []).2 →
        ∀ f ∈ found, Created ((inFolders .create order).run w' []).2 f →
          f ∈ (readiness content found).lfp) ∧
      (∀ f ∈ found, Ran .start (started content expand w) f) ∧
      ∀ dir ok past, ⟨.compose .start dir, ok⟩ :: past <:+ started content expand w →
        ∀ f ∈ found, Ran .create past f := by
  have hperm := perm_orderComposeProjects content found
  obtain ⟨hfirst, hcreating, hran⟩ := Script.run_of_wp w
    (wp_doStart hne hpaths hexpand hdirs hfresh) hdocker Always.nil
  refine ⟨fun f hf => ?_, fun order w' horder hdocker' => ?_, fun f hf => ?_,
    fun dir ok past hin => hfirst _ past hin⟩
  · have hiff := hcreating.created f hf
    rw [hperm.mem_iff, and_iff_right hf] at hiff
    exact hiff
  · have hready : wp (Docker content found present) (fun _ _ => True) (inFolders .create order)
        (fun _ h => ∀ g ∈ found, Created h g → g ∈ (readiness content found).lfp) [] :=
      wp_create_ready hfresh hdirs horder (fun _ _ => trivial) (by simp [Created, composed])
    exact (Script.run_of_wp w' hready hdocker' Always.nil).2
  · exact hran f (hperm.mem_iff.mpr hf)

/-! ### a proxy and what it stands before -/

/-- A docker that does as it is told as far as the networks allow. -/
def idealDocker (content : Path → List Char) (found : List Path) : World Ans
  | h, .compose .create dir => found.all fun f => dirname f != dir ||
      (joined content f).all fun net => found.any fun g =>
        (composed .create h).contains (dirname g, true) && (declared content g).contains net
  | _, .compose _ _ => true
  | _, .nerdctlVersion => true
  | _, .sleep => ()
  | _, .isDataDir => true
  | _, .hasMarker => false
  | _, .dockerPs => []
  | _, .dockerRm _ => true
  | _, .touchMarker => ()
  | _, .find => found
  | _, .cd _ => true
  | _, .networkRm _ => true
  | _, .reboot => ()

/-- The ideal docker of the tests is one. -/
theorem docker_idealDocker (hdirs : OwnFolders found) (c : Cmd) (h : History Ans) :
    Docker content found (fun _ => False) ⟨c, idealDocker content found h c⟩ h := by
  cases c with
  | compose verb dir =>
      cases verb with
      | create =>
          intro f hf hdir
          have hideal : idealDocker content found h (.compose .create dir) = true ↔
              ∀ g ∈ found, dirname g = dir → ∀ net ∈ joined content g,
                HasNetwork content found (fun _ => False) h net := by
            simp [idealDocker, HasNetwork, Created, Decidable.imp_iff_not_or]
          refine hideal.trans ⟨fun hall => hall f hf hdir, fun hall g hg hdir' => ?_⟩
          rw [hdirs.inj hg hf (hdir'.trans hdir.symm)]
          exact hall
      | _ => trivial
  | _ => trivial

def proxyFile : Path := "/compose/caddy/docker-compose.yml".toList

def siteFile : Path := "/compose/we.b/docker-compose.yml".toList

def proxyContent (file : Path) : List Char :=
  if file = proxyFile then "networks:\n  web_backend:\n    external: true\n".toList
  else "networks:\n  backend:\n".toList

theorem isPath_proxyFiles : ∀ p ∈ [proxyFile, siteFile], IsPath p := by
  have hall : [proxyFile, siteFile].all (fun p =>
      !p.isEmpty && p.all fun c => !isSpace c && c != Char.ofNat 0) = true := by decide +kernel
  intro p hp
  simpa [IsPath] using List.all_eq_true.mp hall p hp

theorem ownFolders_proxyFiles : OwnFolders [proxyFile, siteFile] := by
  unfold OwnFolders
  decide +kernel

theorem start_creates_proxy :
    proxyFile ∈ (readiness proxyContent [proxyFile, siteFile]).lfp ∧
      Created (started proxyContent (fun p => [p]) (idealDocker proxyContent [proxyFile, siteFile]))
        proxyFile := by
  have hknown : ∀ f ∈ [proxyFile, siteFile], ∀ net ∈ joined proxyContent f,
      ∃ g ∈ [proxyFile, siteFile], net ∈ declared proxyContent g := by decide +kernel
  have hcreated : Created
      (started proxyContent (fun p => [p]) (idealDocker proxyContent [proxyFile, siteFile]))
      proxyFile := by
    unfold Created
    decide +kernel
  have hfresh : Fresh proxyContent [proxyFile, siteFile] fun _ => False :=
    ⟨fun f hf net hnet hnot => absurd (hknown f hf net hnet) hnot, by simp⟩
  have hstart := start_creates (by simp) isPath_proxyFiles (fun p _ => rfl) ownFolders_proxyFiles
    hfresh (idealDocker proxyContent [proxyFile, siteFile])
    (Script.always_run (docker_idealDocker ownFolders_proxyFiles) _ Always.nil)
  exact ⟨(hstart.1 proxyFile (by simp)).mp hcreated, hcreated⟩

end Zebrafish.Compose
