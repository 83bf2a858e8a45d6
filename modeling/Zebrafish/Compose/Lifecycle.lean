import Zebrafish.Compose.Startup

/-!
# Zebrafish.Compose.Lifecycle

What the compose service keeps to when it stops, and from boot to boot.

A stop removes a project only when those that join its networks are gone
(`stop_tears_down`), as long as no network is declared twice.  And leftover
containers are removed only before a boot has any of its own
(`orphans_dropped_first`).
-/

namespace Zebrafish.Compose

open Script (Event History World Always wp)

/-! ## a stop -/

variable {content : Path → List Char} {found : List Path} {h : History Ans}

/-- No network is declared by two projects. -/
def OneProvider (content : Path → List Char) (found : List Path) : Prop :=
  ∀ g ∈ found, ∀ g' ∈ found, ∀ net, net ∈ declared content g → net ∈ declared content g' → g = g'

/-- A network is not removed before the projects that use it: those that join
it, as far as they are resolved, and the one that declares it. -/
def Torn (content : Path → List Char) (found : List Path) : Event Ans → History Ans → Prop
  | ⟨.compose .down dir, _⟩, h => (∀ f ∈ found, Ran .stop h f) ∧
      ∀ g ∈ found, dirname g = dir → ∀ f ∈ (readiness content found).lfp, f ≠ g →
        (∃ net ∈ joined content f, net ∈ declared content g) → Ran .down h f
  | ⟨.networkRm net, _⟩, h => ∀ f ∈ found,
      net ∈ declared content f ∨ f ∈ (readiness content found).lfp ∧ net ∈ joined content f →
        Ran .down h f
  | _, _ => True

/-- Whoever joins a network comes after its provider. -/
theorem provider_before (hone : OneProvider content found) (hnodup : found.Nodup)
    {before after : List Path} {f g : Path}
    (hsplit : orderComposeProjects content found = before ++ f :: after)
    (hf : f ∈ (readiness content found).lfp) (hg : g ∈ found)
    (hnet : ∃ net ∈ joined content f, net ∈ declared content g) : g ∈ before := by
  obtain ⟨net, hjoined, hdeclared⟩ := hnet
  obtain ⟨g', hbefore, hg', -, hdeclared'⟩ :=
    split_resolved hnodup hsplit hf net hjoined ⟨g, hg, hdeclared⟩
  exact hone g hg g' hg' net hdeclared hdeclared' ▸ hbefore

/-- So it comes before it in the opposite order. -/
theorem joiner_before (hone : OneProvider content found) (hnodup : found.Nodup)
    {before after : List Path} {f g : Path}
    (hsplit : (orderComposeProjects content found).reverse = before ++ g :: after)
    (hf : f ∈ (readiness content found).lfp) (hne : f ≠ g)
    (hnet : ∃ net ∈ joined content f, net ∈ declared content g) : f ∈ before := by
  have hperm := perm_orderComposeProjects content found
  have horder := hperm.nodup_iff.mpr hnodup
  have hforward : orderComposeProjects content found = after.reverse ++ g :: before.reverse := by
    have hrev := congrArg List.reverse hsplit
    simpa using hrev
  have hg : g ∈ found := hperm.mem_iff.mp (by simp [hforward])
  have hmem : f ∈ orderComposeProjects content found := hperm.mem_iff.mpr (mem_lfp_iff.mp hf).1
  rw [hforward] at hmem horder
  obtain hafter | hbefore := List.mem_append.mp hmem
  · -- then its provider would come before it, and again behind it
    obtain ⟨x, y, hxy⟩ := List.append_of_mem hafter
    have hsplit' : orderComposeProjects content found = x ++ f :: (y ++ g :: before.reverse) := by
      rw [hforward, hxy]
      simp
    have hgx := provider_before hone hnodup hsplit' hf hg hnet
    obtain ⟨-, -, hapart⟩ := List.nodup_append.mp horder
    exact absurd rfl (hapart g (by rw [hxy]; simp [hgx]) g List.mem_cons_self)
  · obtain rfl | hbefore := List.mem_cons.mp hbefore
    · exact absurd rfl hne
    · simpa using hbefore

/-- While projects are torn down. -/
structure Tearing (found visited : List Path) (h : History Ans) : Prop where
  stopped : ∀ f ∈ found, Ran .stop h f
  down : ∀ f ∈ visited, Ran .down h f

/-- First, every project is told to stop. -/
theorem wp_stopAll (order : List Path) :
    wp (Found found) (Torn content found) (inFolders .stop order)
      (fun _ h => ∀ f ∈ order, Ran .stop h f) h := by
  refine wp_inFolders (I := fun before h => ∀ f ∈ before, Ran .stop h f)
    (fun dir ok h hok => ⟨hok, trivial⟩) (fun before f after h hsplit hI ok hok => ?_) (by simp)
  refine ⟨trivial, fun g hg => ?_⟩
  simp only [Ran, composed_compose, composed_cd, if_pos, List.map_cons, List.mem_cons]
  obtain hg | hg := List.mem_append.mp hg
  · exact Or.inr (hI g hg)
  · exact Or.inl (by rw [List.mem_singleton.mp hg])

/-- One project is torn down, those that join its networks being gone. -/
theorem wp_tearDown (hone : OneProvider content found) (hdirs : OwnFolders found)
    {before : List Path} {g : Path} (hg : g ∈ found)
    (hjoiners : ∀ f ∈ (readiness content found).lfp, f ≠ g →
      (∃ net ∈ joined content f, net ∈ declared content g) → f ∈ before)
    (hinit : Tearing found before h) :
    wp (Found found) (Torn content found) (tearDown content g)
      (fun _ => Tearing found (before ++ [g])) h := by
  rw [tearDown, Script.wp_bind, wp_sh]
  intro entered hentered
  refine ⟨trivial, ?_⟩
  rw [show entered = true from hentered, if_pos rfl, Script.wp_bind, wp_sh]
  refine fun ok _ => ⟨⟨hinit.stopped, fun g' hg' hdir f hf hne hnet => ?_⟩, ?_⟩
  · rw [hdirs.inj hg' hg hdir] at hne hnet
    exact hinit.down f (hjoiners f hf hne hnet)
  · have hgone : Tearing found (before ++ [g])
        (⟨.compose .down (dirname g), ok⟩ :: ⟨.cd (dirname g), true⟩ :: h) := by
      refine ⟨hinit.stopped, fun f hf => ?_⟩
      simp only [Ran, composed_compose, composed_cd, if_pos, List.map_cons, List.mem_cons]
      obtain hf | hf := List.mem_append.mp hf
      · exact Or.inr (hinit.down f hf)
      · exact Or.inl (by rw [List.mem_singleton.mp hf])
    refine Script.wp_forEach (I := fun _ => Tearing found (before ++ [g]))
      (fun done net rest h hsplit hI => ?_) hgone
    rw [Script.wp_bind, wp_sh]
    refine fun removed _ => ⟨fun f hf huses => hI.down f ?_, hI.stopped, hI.down⟩
    have hnet : net ∈ declared content g := by simp [hsplit]
    obtain hdeclared | ⟨hlfp, hjoined⟩ := huses
    · simp [hone f hf g hg net hdeclared hnet]
    · by_cases hfg : f = g
      · simp [hfg]
      · exact List.mem_append_left _ (hjoiners f hlfp hfg ⟨net, hjoined, hnet⟩)

/-- A stop, with projects that are all found. -/
theorem wp_doStop {expand : Path → List Path} (hne : found ≠ []) (hpaths : ∀ p ∈ found, IsPath p)
    (hexpand : ∀ p ∈ found, expand p = [p]) (hdirs : OwnFolders found)
    (hone : OneProvider content found) :
    wp (Found found) (Torn content found) (doStop content expand)
      (fun _ => Tearing found (orderComposeProjects content found).reverse) h := by
  have hnodup : found.Nodup := List.Nodup.of_map dirname hdirs
  have hperm := perm_orderComposeProjects content found
  have hlist := composeProjects_plain content hne hpaths hexpand
  rw [doStop, Script.wp_bind, wp_sh]
  intro there hthere
  refine ⟨trivial, ?_⟩
  rw [show there = true from hthere, if_pos rfl, Script.wp_bind, wp_sh]
  intro paths hfound
  refine ⟨trivial, ?_⟩
  rw [show paths = found from hfound, hlist, Script.wp_bind]
  refine Script.wp_mono (wp_stopAll _) fun _ h₁ hstopped => ?_
  have hinit : Tearing found [] h₁ :=
    ⟨fun f hf => hstopped f (List.mem_reverse.mpr (hperm.mem_iff.mpr hf)), by simp⟩
  rw [Script.wp_bind]
  refine Script.wp_mono (Script.wp_forEach (I := Tearing found)
    (fun before g after h hsplit hI => ?_) hinit) fun _ h₂ h₂I => h₂I
  have hg : g ∈ found := hperm.mem_iff.mp (List.mem_reverse.mp (by simp [hsplit]))
  exact wp_tearDown hone hdirs hg
    (fun f hf hne hnet => joiner_before hone hnodup hsplit hf hne hnet) hI

variable (content) in
/-- What a stop does, the newest event first. -/
def stopped (expand : Path → List Path) (w : World Ans) : History Ans :=
  ((doStop content expand).run w []).2

/-- **A stop takes no network from under a project.**  Whatever docker answers,
all projects are told to stop before any is removed, a project is removed after
those that join a network it declares, the same holds of the networks
themselves, and every project is removed in the end. -/
theorem stop_tears_down {expand : Path → List Path} (hne : found ≠ [])
    (hpaths : ∀ p ∈ found, IsPath p) (hexpand : ∀ p ∈ found, expand p = [p])
    (hdirs : OwnFolders found) (hone : OneProvider content found) (w : World Ans)
    (hfound : Always (Found found) (stopped content expand w)) :
    Always (Torn content found) (stopped content expand w) ∧
      ∀ f ∈ found, Ran .stop (stopped content expand w) f ∧
        Ran .down (stopped content expand w) f := by
  have hperm := perm_orderComposeProjects content found
  obtain ⟨htorn, hend⟩ := Script.run_of_wp w (wp_doStop hne hpaths hexpand hdirs hone) hfound
    Always.nil
  refine ⟨htorn, fun f hf => ⟨hend.stopped f hf, hend.down f ?_⟩⟩
  exact List.mem_reverse.mpr (hperm.mem_iff.mpr hf)

theorem stop_tears_down_proxy :
    Always (Torn proxyContent [proxyFile, siteFile])
      (stopped proxyContent (fun p => [p]) (idealDocker proxyContent [proxyFile, siteFile])) ∧
    composed .down
      (stopped proxyContent (fun p => [p]) (idealDocker proxyContent [proxyFile, siteFile])) =
        [(dirname siteFile, true), (dirname proxyFile, true)] := by
  have hone : OneProvider proxyContent [proxyFile, siteFile] := by
    have hall : ∀ g ∈ [proxyFile, siteFile], ∀ g' ∈ [proxyFile, siteFile],
        ∀ net ∈ declared proxyContent g, net ∈ declared proxyContent g' → g = g' := by
      decide +kernel
    exact fun g hg g' hg' net hnet => hall g hg g' hg' net hnet
  have hfound : ∀ c h, Found [proxyFile, siteFile]
      ⟨c, idealDocker proxyContent [proxyFile, siteFile] h c⟩ h := by
    intro c h
    cases c <;> trivial
  exact ⟨(stop_tears_down (by simp) isPath_proxyFiles (fun p _ => rfl) ownFolders_proxyFiles hone _
    (Script.always_run hfound _ Always.nil)).1, by decide +kernel⟩

/-! ## from boot to boot -/

/-- The marker is there. -/
def marked : History Ans → Bool
  | [] => false
  | ⟨.touchMarker, _⟩ :: _ => true
  | ⟨.reboot, _⟩ :: _ => false
  | _ :: h => marked h

/-- Since the last reboot, containers were removed as leftovers, or created or
started. -/
def begun : History Ans → Bool
  | [] => false
  | ⟨.dockerRm _, _⟩ :: _ => true
  | ⟨.compose .create _, _⟩ :: _ => true
  | ⟨.compose .start _, _⟩ :: _ => true
  | ⟨.reboot, _⟩ :: _ => false
  | _ :: h => begun h

/-- The file system answers by what was done to it. -/
def Marker : Event Ans → History Ans → Prop
  | ⟨.hasMarker, r⟩, h => r = marked h
  | _, _ => True

def DropsFirst : Event Ans → History Ans → Prop
  | ⟨.dockerRm _, _⟩, h => begun h = false
  | _, _ => True

def Inv (h : History Ans) : Prop := begun h = true → marked h = true

/-- Commands that neither remove leftovers nor reboot. -/
def keepsMarker : Cmd → Bool
  | .dockerRm _ | .reboot => false
  | _ => true

/-- Those of them that bring no project up. -/
def keepsInv : Cmd → Bool
  | .compose .create _ | .compose .start _ => false
  | c => keepsMarker c

/-- The marker stays there until the next boot. -/
theorem marked_cons (e : Event Ans) (h : History Ans) (he : keepsMarker e.1 = true)
    (_ : Marker e h) (hmarked : marked h = true) : DropsFirst e h ∧ marked (e :: h) = true := by
  obtain ⟨c, r⟩ := e
  cases c <;> first | exact ⟨trivial, hmarked⟩ | exact ⟨trivial, rfl⟩ | cases he

/-- Commands beside the ones in question keep the invariant. -/
theorem Inv.cons (e : Event Ans) (h : History Ans) (he : keepsInv e.1 = true)
    (_ : Marker e h) (hinv : Inv h) : DropsFirst e h ∧ Inv (e :: h) := by
  obtain ⟨c, r⟩ := e
  cases c with
  | compose verb dir => cases verb <;> first | exact ⟨trivial, hinv⟩ | cases he
  | touchMarker => exact ⟨trivial, fun _ => rfl⟩
  | _ => first | exact ⟨trivial, hinv⟩ | cases he

/-- A walk through the folders runs one command in each. -/
theorem only_inFolders {P : Cmd → Prop} (hcd : ∀ dir, P (.cd dir)) {verb : Verb}
    (hverb : ∀ dir, P (.compose verb dir)) (files : List Path) : (inFolders verb files).Only P := by
  refine Script.Only.foldlM (fun file _ _ => ?_) ()
  refine Script.Only.bind (Script.only_command.mpr (hcd _)) fun ok => ?_
  split
  · exact Script.Only.bind (Script.only_command.mpr (hverb _)) fun _ => Script.only_pure ()
  · exact Script.only_pure ()

/-- A stop does not remove leftovers. -/
theorem only_doStop (content : Path → List Char) (expand : Path → List Path) :
    (doStop content expand).Only fun c => keepsInv c = true := by
  refine Script.Only.bind (Script.only_command.mpr rfl) fun there => ?_
  split
  · refine Script.Only.bind (Script.only_command.mpr rfl) fun found => ?_
    refine Script.Only.bind (only_inFolders (fun _ => rfl) (fun _ => rfl) _) fun _ => ?_
    refine Script.Only.bind (Script.Only.foldlM (fun file _ _ => ?_) ()) fun _ =>
      Script.only_pure true
    refine Script.Only.bind (Script.only_command.mpr rfl) fun ok => ?_
    split
    · refine Script.Only.bind (Script.only_command.mpr rfl) fun _ => ?_
      refine Script.Only.foldlM (fun net _ _ => ?_) ()
      exact Script.Only.bind (Script.only_command.mpr rfl) fun _ => Script.only_pure ()
    · exact Script.only_pure ()
  · exact Script.only_pure false

/-- After it the marker is there. -/
theorem wp_dropOrphans_marked (hinv : Inv h) :
    wp Marker DropsFirst dropOrphans (fun _ h => marked h = true) h := by
  rw [dropOrphans, Script.wp_bind, wp_sh]
  intro there hthere
  refine ⟨trivial, ?_⟩
  split
  · next hmarked => exact hthere.symm.trans hmarked
  · next hunmarked =>
      have hbegun : begun h = false := by
        rw [Bool.eq_false_iff]
        exact fun hbegun => hunmarked (hthere.trans (hinv hbegun))
      rw [Script.wp_bind, wp_sh]
      refine fun orphaned _ => ⟨trivial, ?_⟩
      dsimp only
      split
      · exact fun _ _ => ⟨trivial, rfl⟩
      · rw [Script.wp_bind, wp_sh]
        exact fun ok _ => ⟨hbegun, fun _ _ => ⟨trivial, rfl⟩⟩

/-- A start keeps the invariant. -/
theorem wp_doStart_inv (content : Path → List Char) (expand : Path → List Path) (hinv : Inv h) :
    wp Marker DropsFirst (doStart content expand) (fun _ => Inv) h := by
  have hwait := only_waitForContainerd (P := fun c => keepsInv c = true) rfl rfl 5
  rw [doStart, Script.wp_bind]
  refine Script.wp_mono (Script.wp_of_only Inv.cons hwait hinv) fun _ h₁ h₁I => ?_
  rw [Script.wp_bind, wp_sh]
  refine fun there _ => ⟨trivial, ?_⟩
  split
  · rw [Script.wp_bind]
    refine Script.wp_mono (wp_dropOrphans_marked h₁I) fun _ h₂ hmarked => ?_
    have hrest : (do
        let found ← sh .find
        inFolders .create (composeProjects content expand found)
        inFolders .start (composeProjects content expand found)
        pure true).Only fun c => keepsMarker c = true := by
      refine Script.Only.bind (Script.only_command.mpr rfl) fun found => ?_
      refine Script.Only.bind (only_inFolders (fun _ => rfl) (fun _ => rfl) _) fun _ => ?_
      exact Script.Only.bind (only_inFolders (fun _ => rfl) (fun _ => rfl) _) fun _ =>
        Script.only_pure true
    exact Script.wp_mono (Script.wp_of_only marked_cons hrest hmarked)
      fun _ _ hmarked _ => hmarked
  · exact h₁I

/-- So does each of the actions. -/
theorem wp_act (content : Path → List Char) (expand : Path → List Path) (a : Action)
    (hinv : Inv h) : wp Marker DropsFirst (act content expand a) (fun _ => Inv) h := by
  have hstop : wp Marker DropsFirst (doStop content expand) (fun _ => Inv) h :=
    Script.wp_of_only Inv.cons (only_doStop content expand) hinv
  cases a with
  | start =>
      rw [act, Script.wp_bind]
      exact wp_doStart_inv content expand hinv
  | stop =>
      rw [act, Script.wp_bind]
      exact hstop
  | restart =>
      rw [act, Script.wp_bind]
      refine Script.wp_mono hstop fun going h₁ h₁I => ?_
      split
      · rw [Script.wp_bind]
        exact wp_doStart_inv content expand h₁I
      · exact h₁I
  | reboot => exact fun _ _ => ⟨trivial, fun hbegun => absurd hbegun (by simp [begun])⟩

/-- **Leftovers are removed first.**  Over any sequence of starts, stops,
restarts and reboots, containers are removed as leftovers at most once in a
boot, and only before the service has created or started any of its own. -/
theorem orphans_dropped_first (expand : Path → List Path)
    (as : List ((Path → List Char) × Action)) (w : World Ans)
    (hmarker : Always Marker ((acts expand as).run w []).2) :
    ∀ ids ok past, ⟨.dockerRm ids, ok⟩ :: past <:+ ((acts expand as).run w []).2 →
      begun past = false := by
  have hacts : wp Marker DropsFirst (acts expand as) (fun _ => Inv) [] :=
    Script.wp_forEach (I := fun _ => Inv) (fun _ a _ _ _ hinv => wp_act a.1 expand a.2 hinv)
      (by simp [Inv, begun])
  exact fun ids ok past hin => (Script.run_of_wp w hacts hmarker Always.nil).1 _ past hin

/-- A machine with a container left over at every boot. -/
def leftovers : World Ans
  | h, .hasMarker => marked h
  | _, .dockerPs => ['7', 'f', '\n']
  | h, c => idealDocker proxyContent [] h c

/-- Whether leftovers are removed. -/
def isDrop : Event Ans → Bool
  | ⟨.dockerRm _, _⟩ => true
  | _ => false

/-- A start and a restart, and a start after a reboot. -/
def twoBoots : History Ans :=
  ((acts (fun p => [p]) [(proxyContent, .start), (proxyContent, .restart), (proxyContent, .reboot),
    (proxyContent, .start)]).run leftovers []).2

theorem orphans_dropped_first_leftovers :
    twoBoots.countP isDrop = 2 ∧
      ∀ ids ok past, ⟨.dockerRm ids, ok⟩ :: past <:+ twoBoots → begun past = false := by
  refine ⟨by decide +kernel, ?_⟩
  refine orphans_dropped_first _ _ leftovers (Script.always_run (fun c h => ?_) _ Always.nil)
  cases c <;> trivial

end Zebrafish.Compose
