import Mathlib.Data.List.Nodup
import Zebrafish.System.Upgrade

/-!
# Zebrafish.System.Recovery

Interrupted upgrades that are started over (`lib/zebrafish/upgrade`).

As long as the remote stays the same, interruptions leave no trace: whatever was
cut short, a run that finds nothing to do finds each file as one uninterrupted
run would have left it, the manifest at least as far as `$(…)` keeps it, and
until then the script can be run to its end (`upgrade_recovers`).
-/

namespace Zebrafish.System.Upgrade

open Files

variable {ν σ η : Type}

/-- The directory with files copied over. -/
def copied [DecidableEq σ] (tools : Tools ν σ η) (archive : ν → Option Bytes) (es : List (ν × η))
    (dir : σ → Option Bytes) : σ → Option Bytes :=
  es.foldl (fun dir e => assign dir (tools.slot e.1) (archive e.1)) dir

/-- What an uninterrupted run makes of a directory. -/
def installed [DecidableEq σ] (tools : Tools ν σ η) (remote : Bytes) (archive : ν → Option Bytes)
    (es : List (ν × η)) (dir : σ → Option Bytes) : σ → Option Bytes :=
  assign (copied tools archive es dir) tools.manifest (some (tools.echoE remote))

/-- Nothing else is installed, or found to be. -/
structure Steady (remote : Bytes) (archive : ν → Option Bytes) (_ s' : State ν σ η) : Prop where
  found : ∀ r, s'.phase = .noUpdate r → r = remote
  install : ∀ r a es, s'.phase = .installing r a [] es → r = remote ∧ a = archive

/-- A release: its manifest lists files of their own, which are in its archive
with the hashes listed. -/
structure Release (tools : Tools ν σ η) (remote : Bytes) (archive : ν → Option Bytes)
    (es : List (ν × η)) : Prop where
  entries : tools.entries (tools.echoE remote) = some es
  nonempty : es ≠ []
  verified : Verified tools archive es
  distinct : (es.map fun e => tools.slot e.1).Nodup
  notSelf : ∀ e ∈ es, tools.slot e.1 ≠ tools.manifest

/-! ### copying -/

variable [DecidableEq σ] {tools : Tools ν σ η} {remote : Bytes} {archive : ν → Option Bytes}
  {es : List (ν × η)} {dir dir₀ : σ → Option Bytes} {s s' : State ν σ η} {f : σ}

/-- Files that are not listed stay as they are. -/
theorem copied_of_not_mem (h : ∀ e ∈ es, tools.slot e.1 ≠ f) :
    copied tools archive es dir f = dir f := by
  induction es generalizing dir with
  | nil => rfl
  | cons e es ih =>
      obtain ⟨he, hes⟩ := List.forall_mem_cons.mp h
      exact (ih hes).trans (assign_of_ne he.symm)

/-- A file that is listed is the one of the archive. -/
theorem copied_of_mem (hdistinct : (es.map fun e => tools.slot e.1).Nodup) {e : ν × η}
    (he : e ∈ es) : copied tools archive es dir (tools.slot e.1) = archive e.1 := by
  induction es generalizing dir with
  | nil => cases he
  | cons e' es ih =>
      obtain ⟨hnot, hnodup⟩ := List.nodup_cons.mp hdistinct
      obtain rfl | he := List.mem_cons.mp he
      · have hlater : ∀ e' ∈ es, tools.slot e'.1 ≠ tools.slot e.1 :=
          fun e' he' heq => hnot (List.mem_map.mpr ⟨e', he', heq⟩)
        rw [copied, List.foldl_cons]
        exact (copied_of_not_mem hlater).trans (assign_self _ _ _)
      · exact ih hnodup he

/-- Where a directory differs only in the files of a release, installing the
release makes no difference. -/
theorem installed_congr (hdistinct : (es.map fun e => tools.slot e.1).Nodup)
    (h : ∀ f, f ≠ tools.manifest → (∀ e ∈ es, tools.slot e.1 ≠ f) → dir f = dir₀ f) :
    installed tools remote archive es dir = installed tools remote archive es dir₀ := by
  funext f
  by_cases hf : f = tools.manifest
  · rw [hf, installed, installed, assign_self, assign_self]
  · rw [installed, installed, assign_of_ne hf, assign_of_ne hf]
    by_cases hin : ∃ e ∈ es, tools.slot e.1 = f
    · obtain ⟨e, he, rfl⟩ := hin
      rw [copied_of_mem hdistinct he, copied_of_mem hdistinct he]
    · have hnot : ∀ e ∈ es, tools.slot e.1 ≠ f := fun e he heq => hin ⟨e, he, heq⟩
      rw [copied_of_not_mem hnot, copied_of_not_mem hnot, h f hf hnot]

/-- An installed release matches its files. -/
theorem Release.consistent (h : Release tools remote archive es) :
    Consistent tools (installed tools remote archive es dir) := by
  intro stored hstored es' hes e he
  rw [installed, assign_self, Option.some.injEq] at hstored
  rw [← hstored, h.entries, Option.some.injEq] at hes
  subst hes
  obtain ⟨content, hcontent, hsum⟩ := h.verified e he
  refine ⟨content, ?_, hsum⟩
  rw [installed, assign_of_ne (h.notSelf e he), copied_of_mem h.distinct he, hcontent]

/-! ### interruptions -/

/-- What is known after any interruptions. -/
structure Resumable (tools : Tools ν σ η) (remote : Bytes) (archive : ν → Option Bytes)
    (es : List (ν × η)) (dir₀ : σ → Option Bytes) (s : State ν σ η) : Prop where
  outside : ∀ f, f ≠ tools.manifest → (∀ e ∈ es, tools.slot e.1 ≠ f) → s.dir f = dir₀ f
  manifest : s.dir tools.manifest = dir₀ tools.manifest ∨
    ∃ part, part <+: tools.echoE remote ∧ s.dir tools.manifest = some part
  same : Same tools s.dir remote → ∀ e ∈ es, s.dir (tools.slot e.1) = archive e.1
  noUpdate : ∀ r, s.phase = .noUpdate r → r = remote ∧ Same tools s.dir remote
  installing : ∀ r a done rest, s.phase = .installing r a done rest →
    r = remote ∧ a = archive ∧ done ++ rest = es ∧ ¬ Same tools s.dir remote ∧
      ∀ e ∈ done, s.dir (tools.slot e.1) = archive e.1

omit [DecidableEq σ] in
/-- Between runs, from what is known of the files. -/
theorem Resumable.idle {pending : Bool}
    (houtside : ∀ f, f ≠ tools.manifest → (∀ e ∈ es, tools.slot e.1 ≠ f) → dir f = dir₀ f)
    (hmanifest : dir tools.manifest = dir₀ tools.manifest ∨
      ∃ part, part <+: tools.echoE remote ∧ dir tools.manifest = some part)
    (hsame : Same tools dir remote → ∀ e ∈ es, dir (tools.slot e.1) = archive e.1) :
    Resumable tools remote archive es dir₀ ⟨dir, .idle, pending⟩ :=
  ⟨houtside, hmanifest, hsame, fun _ h => (by cases h), fun _ _ _ _ h => (by cases h)⟩

/-- Writing to a file of a release, or to another file, changes no manifest. -/
theorem same_assign (hf : f ≠ tools.manifest) (content : Option Bytes) :
    Same tools (assign dir f content) remote ↔ Same tools dir remote := by
  simp only [Same, assign_of_ne (Ne.symm hf)]

/-- Behind the last file any part of the manifest may be written. -/
theorem Resumable.finished (hrelease : Release tools remote archive es)
    (h : Resumable tools remote archive es dir₀ s) {r : Bytes} {a : ν → Option Bytes}
    {done : List (ν × η)} (hphase : s.phase = .installing r a done []) {part : Bytes}
    (hpart : part <+: tools.echoE remote) (pending : Bool) :
    Resumable tools remote archive es dir₀
      ⟨assign s.dir tools.manifest (some part), .idle, pending⟩ := by
  obtain ⟨-, -, hsplit, -, hdone⟩ := h.installing _ _ _ _ hphase
  rw [List.append_nil] at hsplit
  subst hsplit
  refine Resumable.idle (fun f hf hnot => ?_) (.inr ⟨part, hpart, assign_self _ _ _⟩)
    fun _ e he => ?_
  · exact (assign_of_ne hf).trans (h.outside f hf hnot)
  · exact (assign_of_ne (hrelease.notSelf e he)).trans (hdone e he)

/-- A step leaves the files resumable. -/
theorem Resumable.step (hrelease : Release tools remote archive es)
    (h : Resumable tools remote archive es dir₀ s) (hstep : Step tools s s')
    (hcond : Steady remote archive s s') : Resumable tools remote archive es dir₀ s' := by
  cases hstep with
  | noUpdate hidle hsame =>
      refine ⟨h.outside, h.manifest, h.same, fun r hphase => ?_,
        fun _ _ _ _ hphase => (by cases hphase)⟩
      cases hphase
      obtain rfl := hcond.found _ rfl
      exact ⟨rfl, hsame⟩
  | verify hidle hsame hes hne hverified =>
      refine ⟨h.outside, h.manifest, h.same, fun _ hphase => (by cases hphase),
        fun r a done rest hphase => ?_⟩
      cases hphase
      obtain ⟨rfl, rfl⟩ := hcond.install _ _ _ rfl
      rw [hrelease.entries, Option.some.injEq] at hes
      exact ⟨rfl, rfl, hes.symm, hsame, by simp⟩
  | @copy r a done rest e content hphase hcontent =>
      obtain ⟨rfl, rfl, rfl, hsame, hdone⟩ := h.installing _ _ _ _ hphase
      have hself := hrelease.notSelf e (by simp)
      have hsame' : ¬ Same tools (assign s.dir (tools.slot e.1) (some content)) r := by
        rwa [same_assign hself]
      refine ⟨fun f hf hnot => ?_, by simpa only [assign_of_ne hself.symm] using h.manifest,
        fun hsame => absurd hsame hsame', fun _ hphase => (by cases hphase),
        fun _ _ _ _ hphase => ?_⟩
      · exact (assign_of_ne (hnot e (by simp)).symm).trans (h.outside f hf hnot)
      · cases hphase
        refine ⟨rfl, rfl, by simp, hsame', fun e' he' => ?_⟩
        obtain he' | he' := List.mem_append.mp he'
        · have hne : tools.slot e'.1 ≠ tools.slot e.1 := by
            have hdistinct := hrelease.distinct
            rw [List.map_append, List.nodup_append] at hdistinct
            exact hdistinct.2.2 _ (List.mem_map_of_mem he') _ (by simp)
          exact (assign_of_ne hne).trans (hdone e' he')
        · rw [List.mem_singleton.mp he']
          exact (assign_self _ _ _).trans hcontent.symm
  | @copyPart r a done rest e content part hphase hcontent hpart =>
      obtain ⟨rfl, rfl, rfl, hsame, -⟩ := h.installing _ _ _ _ hphase
      have hself := hrelease.notSelf e (by simp)
      refine Resumable.idle (fun f hf hnot => ?_)
        (by simpa only [assign_of_ne hself.symm] using h.manifest) fun hsame' => absurd hsame' ?_
      · exact (assign_of_ne (hnot e (by simp)).symm).trans (h.outside f hf hnot)
      · rwa [same_assign hself]
  | @finish r a done hphase =>
      obtain ⟨rfl, -⟩ := h.installing _ _ _ _ hphase
      exact h.finished hrelease hphase List.prefix_rfl _
  | @finishPart r a done part hphase hpart =>
      obtain ⟨rfl, -⟩ := h.installing _ _ _ _ hphase
      exact h.finished hrelease hphase hpart _
  | stop => exact Resumable.idle h.outside h.manifest h.same

/-! ### starting over -/

/-- Left alone, the copying goes on to the end. -/
theorem run_copies (hverified : Verified tools archive es) (done rest : List (ν × η))
    (hsplit : done ++ rest = es) (dir : σ → Option Bytes) (pending : Bool) :
    ∃ pending', Run (Step tools) (Steady remote archive)
      ⟨dir, .installing remote archive done rest, pending⟩
      ⟨copied tools archive rest dir, .installing remote archive es [], pending'⟩ := by
  induction rest generalizing done dir pending with
  | nil =>
      rw [List.append_nil] at hsplit
      exact ⟨pending, hsplit ▸ Run.refl⟩
  | cons e rest ih =>
      obtain ⟨content, hcontent, -⟩ := hverified e (by simp [← hsplit])
      obtain ⟨pending', hrun⟩ := ih (done ++ [e]) (by simp [← hsplit])
        (assign dir (tools.slot e.1) (archive e.1)) true
      have hcopy : Step tools ⟨dir, .installing remote archive done (e :: rest), pending⟩
          ⟨assign dir (tools.slot e.1) (archive e.1),
            .installing remote archive (done ++ [e]) rest, true⟩ := by
        rw [hcontent]
        exact .copy rfl hcontent
      have hsteady : Steady remote archive
          ⟨dir, .installing remote archive done (e :: rest), pending⟩
          ⟨assign dir (tools.slot e.1) (archive e.1),
            .installing remote archive (done ++ [e]) rest, true⟩ := by
        refine ⟨fun _ hphase => (by cases hphase), fun _ _ _ hphase => ?_⟩
        simp at hphase
      exact ⟨pending', (Run.refl.snoc hcopy hsteady).trans hrun⟩

/-- From any state between runs, the release can be installed. -/
theorem run_installs (hrelease : Release tools remote archive es) (hidle : s.phase = .idle)
    (hsame : ¬ Same tools s.dir remote) :
    Run (Step tools) (Steady remote archive) s
      ⟨installed tools remote archive es s.dir, .idle, false⟩ := by
  have hverify : Step tools s { s with phase := .installing remote archive [] es } :=
    .verify hidle hsame hrelease.entries hrelease.nonempty hrelease.verified
  have hsteady : Steady remote archive s { s with phase := .installing remote archive [] es } := by
    refine ⟨fun _ hphase => (by cases hphase), fun _ _ _ hphase => ?_⟩
    cases hphase
    exact ⟨rfl, rfl⟩
  obtain ⟨pending', hcopies⟩ : ∃ pending', Run (Step tools) (Steady remote archive)
      ⟨s.dir, .installing remote archive [] es, s.pending⟩
      ⟨copied tools archive es s.dir, .installing remote archive es [], pending'⟩ :=
    run_copies hrelease.verified [] es rfl s.dir s.pending
  exact Run.snoc ((Run.refl.snoc hverify hsteady).trans hcopies) (.finish rfl)
    ⟨fun _ hphase => (by cases hphase), fun _ _ _ hphase => (by cases hphase)⟩

/-- **Interruptions leave no trace.**  While the remote is one release, which was
not installed at first, runs may be cut off anywhere and as often as one likes:
one that exits with "No update required." finds each file but the manifest as an
uninterrupted run would have left it, and the start of the manifest, all of it
that `$(…)` keeps; and from any other state between runs the script can go on to
just what that run would have left, which matches its manifest. -/
theorem upgrade_recovers (hrelease : Release tools remote archive es)
    (hnew : ¬ Same tools dir₀ remote)
    (hrun : Run (Step tools) (Steady remote archive) ⟨dir₀, .idle, false⟩ s) :
    (∀ r, s.phase = .noUpdate r → r = remote ∧
      (∀ f, f ≠ tools.manifest → s.dir f = installed tools remote archive es dir₀ f) ∧
      ∃ stored, s.dir tools.manifest = some stored ∧ stored <+: tools.echoE remote ∧
        capture stored = remote) ∧
      (s.phase = .idle → ¬ Same tools s.dir remote →
        Run (Step tools) (Steady remote archive) s
          ⟨installed tools remote archive es dir₀, .idle, false⟩) ∧
      Consistent tools (installed tools remote archive es dir₀) ∧
      installed tools remote archive es dir₀ tools.manifest = some (tools.echoE remote) := by
  have hinit : Resumable tools remote archive es dir₀ ⟨dir₀, .idle, false⟩ :=
    Resumable.idle (fun _ _ _ => rfl) (.inl rfl) fun hsame => absurd hsame hnew
  have hinv : Resumable tools remote archive es dir₀ s :=
    Run.invariant hinit (fun _ _ h hstep hcond => h.step hrelease hstep hcond) hrun
  refine ⟨fun r hphase => ?_, fun hidle hsame => ?_, hrelease.consistent, assign_self _ _ _⟩
  · obtain ⟨rfl, hsame⟩ := hinv.noUpdate r hphase
    refine ⟨rfl, fun f hf => ?_, ?_⟩
    · rw [installed, assign_of_ne hf]
      by_cases hin : ∃ e ∈ es, tools.slot e.1 = f
      · obtain ⟨e, he, rfl⟩ := hin
        rw [hinv.same hsame e he, copied_of_mem hrelease.distinct he]
      · have hnot : ∀ e ∈ es, tools.slot e.1 ≠ f := fun e he heq => hin ⟨e, he, heq⟩
        rw [hinv.outside f hf hnot, copied_of_not_mem hnot]
    · -- the first manifest was not the remote one, so this one was written since
      obtain hold | ⟨part, hpart, hwritten⟩ := hinv.manifest
      · rw [Same, hold] at hsame
        exact absurd hsame hnew
      · obtain ⟨stored, hstored, hread⟩ := hsame
        rw [hwritten, Option.some.injEq] at hstored
        exact ⟨part, hwritten, hpart, hstored ▸ hread⟩
  · rw [← installed_congr hrelease.distinct hinv.outside]
    exact run_installs hrelease hidle hsame

theorem release_v2 : Release twoReleases v2Manifest v2Archive [(kernel, v2Hash)] where
  entries := entries_v2
  nonempty := by simp
  verified e he := by
    rw [List.mem_singleton.mp he]
    exact ⟨v2, by decide, by decide⟩
  distinct := by simp
  notSelf e he := by
    rw [List.mem_singleton.mp he]
    decide

omit [DecidableEq σ] in
/-- Another manifest is not the remote one. -/
theorem not_same_of_ne {stored : Bytes} (hdir : dir tools.manifest = some stored)
    (hne : capture stored ≠ remote) : ¬ Same tools dir remote := by
  rintro ⟨stored', hstored, hsame⟩
  rw [hdir, Option.some.injEq] at hstored
  exact hne (hstored ▸ hsame)

/-- The second release is cut off in the middle of its kernel, and started over. -/
theorem upgrade_recovers_v2 : ∃ s : State String String String, s.dir kernel = some [118] ∧
    Run (Step twoReleases) (Steady v2Manifest v2Archive) s
      ⟨installed twoReleases v2Manifest v2Archive [(kernel, v2Hash)] v1Dir, .idle, false⟩ := by
  have hnew : ¬ Same twoReleases v1Dir v2Manifest :=
    not_same_of_ne (show v1Dir twoReleases.manifest = some (v1Manifest ++ [10]) from rfl)
      (by decide +kernel)
  have hverify : Steady v2Manifest v2Archive ⟨v1Dir, .idle, false⟩
      ⟨v1Dir, .installing v2Manifest v2Archive [] [(kernel, v2Hash)], false⟩ := by
    refine ⟨fun _ hphase => (by cases hphase), fun _ _ _ hphase => ?_⟩
    cases hphase
    exact ⟨rfl, rfl⟩
  have hcut : Step twoReleases
      ⟨v1Dir, .installing v2Manifest v2Archive [] [(kernel, v2Hash)], false⟩
      ⟨assign v1Dir kernel (some [118]), .idle, true⟩ := by
    have hphase : (⟨v1Dir, .installing v2Manifest v2Archive [] [(kernel, v2Hash)], false⟩ :
        State String String String).phase =
          .installing v2Manifest v2Archive [] ((kernel, v2Hash) :: []) := rfl
    have hcontent : v2Archive kernel = some v2 := by decide
    have hpart : [118] <+: v2 := by decide
    exact .copyPart hphase hcontent hpart
  have hrun := (Run.refl.snoc verify_v2 hverify).snoc hcut
    ⟨fun _ hphase => (by cases hphase), fun _ _ _ hphase => (by cases hphase)⟩
  have hsame : ¬ Same twoReleases (assign v1Dir kernel (some [118])) v2Manifest :=
    not_same_of_ne (show assign v1Dir kernel (some [118]) twoReleases.manifest =
      some (v1Manifest ++ [10]) from rfl) (by decide +kernel)
  have hkernel : assign v1Dir kernel (some [118]) kernel = some [118] := assign_self _ _ _
  exact ⟨_, hkernel, (upgrade_recovers release_v2 hnew hrun).2.1 rfl hsame⟩

end Zebrafish.System.Upgrade
