import Zebrafish.Lib.Files
import Zebrafish.Lib.Run

/-!
# Zebrafish.System.Upgrade

The upgrade script (`lib/zebrafish/upgrade`): compare the remote manifest with
the one on the EFI partition, and when they differ verify the downloaded files
against the remote one, copy them over one by one, and write the manifest.

A run may stop anywhere.  The old manifest stays in place until the last file
is copied, so after an interrupted install it vouches for files that are not
there any more; a remote that goes back to it is then taken for installed
(`rollback_missed`).  `Unvouched` rules this out, and with it a run that finds
nothing to do finds every file in place (`upgrade_safe`).
-/

namespace Zebrafish.System.Upgrade

open Files

/-- What the script calls and where names lead.  `entries` are the names and
hashes the loops read off a manifest (`jq`, line by line), `slot` is the file a
name leads to in the kernel directory; the manifest is one of these files. -/
structure Tools (ν σ η : Type) where
  entries : Bytes → Option (List (ν × η))
  sha3sum : Bytes → η
  echoE : Bytes → Bytes
  slot : ν → σ
  manifest : σ

/-- `$(…)`: NUL bytes and trailing newlines are dropped. -/
def capture (bs : Bytes) : Bytes := ((bs.filter (· ≠ 0)).reverse.dropWhile (· = 10)).reverse

/-- Where a run of the script is. -/
inductive Phase (ν η : Type)
  /-- no run, or one that has changed nothing yet -/
  | idle
  /-- exited with "No update required." -/
  | noUpdate (remote : Bytes)
  /-- every file is verified; `done` are copied and `rest` are not -/
  | installing (remote : Bytes) (archive : ν → Option Bytes) (done rest : List (ν × η))

/-- The kernel directory and the script.  `pending` says that an install has
touched files and its manifest is not written: it is not part of the system. -/
structure State (ν σ η : Type) where
  dir : σ → Option Bytes
  phase : Phase ν η
  pending : Bool

variable {ν σ η : Type}

/-- The manifest on the partition reads as the remote one. -/
def Same (tools : Tools ν σ η) (dir : σ → Option Bytes) (remote : Bytes) : Prop :=
  ∃ stored, dir tools.manifest = some stored ∧ capture stored = remote

/-- The hash check of the downloaded files. -/
def Verified (tools : Tools ν σ η) (archive : ν → Option Bytes) (es : List (ν × η)) : Prop :=
  ∀ e ∈ es, ∃ content, archive e.1 = some content ∧ tools.sha3sum content = e.2

/-- One step.  A run may end at any point (`stop`), and a copy or the manifest
may be cut short, leaving a part of what was to be written. -/
inductive Step [DecidableEq σ] (tools : Tools ν σ η) : State ν σ η → State ν σ η → Prop
  /-- the manifests are the same -/
  | noUpdate {s : State ν σ η} {remote : Bytes} (hidle : s.phase = .idle)
      (hsame : Same tools s.dir remote) :
      Step tools s { s with phase := .noUpdate remote }
  /-- they are not, and what was downloaded passes every hash check; a manifest
  without files does not -/
  | verify {s : State ν σ η} {remote : Bytes} {archive : ν → Option Bytes}
      {es : List (ν × η)} (hidle : s.phase = .idle) (hsame : ¬ Same tools s.dir remote)
      (hes : tools.entries (tools.echoE remote) = some es) (hne : es ≠ [])
      (hverified : Verified tools archive es) :
      Step tools s { s with phase := .installing remote archive [] es }
  /-- one file is copied -/
  | copy {s : State ν σ η} {remote : Bytes} {archive : ν → Option Bytes}
      {done rest : List (ν × η)} {e : ν × η} {content : Bytes}
      (hphase : s.phase = .installing remote archive done (e :: rest))
      (hcontent : archive e.1 = some content) :
      Step tools s
        { dir := assign s.dir (tools.slot e.1) (some content)
          phase := .installing remote archive (done ++ [e]) rest
          pending := true }
  /-- the copy breaks off -/
  | copyPart {s : State ν σ η} {remote : Bytes} {archive : ν → Option Bytes}
      {done rest : List (ν × η)} {e : ν × η} {content part : Bytes}
      (hphase : s.phase = .installing remote archive done (e :: rest))
      (hcontent : archive e.1 = some content) (hpart : part <+: content) :
      Step tools s
        { dir := assign s.dir (tools.slot e.1) (some part)
          phase := .idle
          pending := true }
  /-- the manifest is written -/
  | finish {s : State ν σ η} {remote : Bytes} {archive : ν → Option Bytes}
      {done : List (ν × η)} (hphase : s.phase = .installing remote archive done []) :
      Step tools s
        { dir := assign s.dir tools.manifest (some (tools.echoE remote))
          phase := .idle
          pending := false }
  /-- the write of the manifest breaks off -/
  | finishPart {s : State ν σ η} {remote : Bytes} {archive : ν → Option Bytes}
      {done : List (ν × η)} {part : Bytes}
      (hphase : s.phase = .installing remote archive done [])
      (hpart : part <+: tools.echoE remote) :
      Step tools s { s with dir := assign s.dir tools.manifest (some part), phase := .idle }
  /-- the run ends: refused, failed, finished or cut off -/
  | stop {s : State ν σ η} : Step tools s { s with phase := .idle }

/-! ## what should hold -/

/-- A file is there with its hash. -/
def Present (tools : Tools ν σ η) (dir : σ → Option Bytes) (e : ν × η) : Prop :=
  ∃ content, dir (tools.slot e.1) = some content ∧ tools.sha3sum content = e.2

/-- A manifest matches the files. -/
def Matches (tools : Tools ν σ η) (dir : σ → Option Bytes) (manifest : Bytes) : Prop :=
  ∀ es, tools.entries manifest = some es → ∀ e ∈ es, Present tools dir e

/-- The manifest on the partition matches the files. -/
def Consistent (tools : Tools ν σ η) (dir : σ → Option Bytes) : Prop :=
  ∀ stored, dir tools.manifest = some stored → Matches tools dir stored

/-- A step overwrites files of the directory, the manifest apart, only with
content whose hash is the one the manifest being installed lists. -/
def Overwrites (tools : Tools ν σ η) (s s' : State ν σ η) : Prop :=
  ∀ f, f ≠ tools.manifest → s'.dir f ≠ s.dir f →
    ∃ remote archive done rest es e content,
      s.phase = .installing remote archive done rest ∧
      tools.entries (tools.echoE remote) = some es ∧ e ∈ es ∧ tools.slot e.1 = f ∧
      s'.dir f = some content ∧ tools.sha3sum content = e.2

/-! ## when it does -/

/-- A manifest that lists no file with two hashes, and not itself. -/
structure Coherent (tools : Tools ν σ η) (es : List (ν × η)) : Prop where
  once : ∀ e ∈ es, ∀ e' ∈ es, tools.slot e.1 = tools.slot e'.1 → e.2 = e'.2
  notSelf : ∀ e ∈ es, tools.slot e.1 ≠ tools.manifest

/-- The condition on a step: the manifests are not found to be the same while
an install is pending, installed manifests are coherent, and a run that ends
before its last copy leaves the file it was copying whole. -/
structure Unvouched (tools : Tools ν σ η) (s s' : State ν σ η) : Prop where
  found : ∀ remote, s'.phase = .noUpdate remote → s.pending = false
  coherent : ∀ remote archive es, s'.phase = .installing remote archive [] es →
    Coherent tools es
  whole : ∀ remote archive done e rest, s.phase = .installing remote archive done (e :: rest) →
    s'.phase = .idle → s'.dir = s.dir

/-! ## the invariant -/

/-- What an install knows while it copies. -/
structure Installing (tools : Tools ν σ η) (s : State ν σ η) (remote : Bytes)
    (archive : ν → Option Bytes) (done rest : List (ν × η)) : Prop where
  entries : tools.entries (tools.echoE remote) = some (done ++ rest)
  coherent : Coherent tools (done ++ rest)
  verified : Verified tools archive (done ++ rest)
  present : ∀ e ∈ done, Present tools s.dir e
  nonempty : done ++ rest ≠ []
  touched : done ≠ [] → s.pending = true

structure Inv (tools : Tools ν σ η) (s : State ν σ η) : Prop where
  consistent : s.pending = false → Consistent tools s.dir
  installing : ∀ remote archive done rest, s.phase = .installing remote archive done rest →
    Installing tools s remote archive done rest
  noUpdate : ∀ remote, s.phase = .noUpdate remote →
    s.pending = false ∧ Same tools s.dir remote

variable {tools : Tools ν σ η} {s s' : State ν σ η} {dir : σ → Option Bytes}

/-- Between runs only the manifest has to match. -/
theorem inv_of_idle {pending : Bool} (h : pending = false → Consistent tools dir) :
    Inv tools ⟨dir, .idle, pending⟩ :=
  ⟨h, fun _ _ _ _ hphase => (by cases hphase), fun _ hphase => (by cases hphase)⟩

/-- Copying a verified file keeps the others of a coherent manifest. -/
theorem present_copy [DecidableEq σ] {es : List (ν × η)} (hcoh : Coherent tools es)
    {e e' : ν × η} (he : e ∈ es) (he' : e' ∈ es) {content : Bytes}
    (hhash : tools.sha3sum content = e.2) (h : Present tools dir e' ∨ e' = e) :
    Present tools (assign dir (tools.slot e.1) (some content)) e' := by
  by_cases hslot : tools.slot e'.1 = tools.slot e.1
  · refine ⟨content, by rw [hslot, assign_self], ?_⟩
    rw [hhash, hcoh.once e he e' he' hslot.symm]
  · rcases h with ⟨c, hc, hsum⟩ | rfl
    · exact ⟨c, by rw [assign_of_ne hslot, hc], hsum⟩
    · exact absurd rfl hslot

/-- With the manifest written, it matches. -/
theorem consistent_finish [DecidableEq σ] {remote : Bytes} {archive : ν → Option Bytes}
    {done : List (ν × η)} (h : Installing tools s remote archive done []) :
    Consistent tools (assign s.dir tools.manifest (some (tools.echoE remote))) := by
  intro stored hstored es hes e he
  rw [assign_self, Option.some.injEq] at hstored
  subst hstored
  have hentries := h.entries
  rw [hes, Option.some.injEq, List.append_nil] at hentries
  subst hentries
  obtain ⟨content, hcontent, hsum⟩ := h.present e he
  refine ⟨content, ?_, hsum⟩
  rw [assign_of_ne (h.coherent.notSelf e (List.mem_append_left _ he)), hcontent]

/-- What is copied next has the hash it should have. -/
theorem Installing.sum {remote : Bytes} {archive : ν → Option Bytes} {done rest : List (ν × η)}
    {e : ν × η} (h : Installing tools s remote archive done (e :: rest)) {content : Bytes}
    (hcontent : archive e.1 = some content) : tools.sha3sum content = e.2 := by
  obtain ⟨c, hc, hsum⟩ := h.verified e (by simp)
  rw [hcontent, Option.some.injEq] at hc
  rw [hc]
  exact hsum

/-- One step keeps the invariant. -/
theorem Inv.step [DecidableEq σ] (h : Inv tools s) (hstep : Step tools s s')
    (hcond : Unvouched tools s s') : Inv tools s' := by
  cases hstep with
  | noUpdate hidle hsame =>
      refine ⟨h.consistent, fun _ _ _ _ hphase => (by cases hphase), fun _ hphase => ?_⟩
      cases hphase
      exact ⟨hcond.found _ rfl, hsame⟩
  | verify hidle hsame hes hne hverified =>
      refine ⟨h.consistent, fun _ _ _ _ hphase => ?_, fun _ hphase => (by cases hphase)⟩
      cases hphase
      exact ⟨hes, hcond.coherent _ _ _ rfl, hverified, by simp, hne, by simp⟩
  | @copy remote archive done rest e content hphase hcontent =>
      have hinst := h.installing _ _ _ _ hphase
      have hsplit : done ++ e :: rest = (done ++ [e]) ++ rest := by simp
      refine ⟨fun hfalse => (by cases hfalse), fun _ _ _ _ hphase' => ?_,
        fun _ hphase' => (by cases hphase')⟩
      cases hphase'
      refine ⟨hsplit ▸ hinst.entries, hsplit ▸ hinst.coherent, hsplit ▸ hinst.verified, ?_,
        by simp, fun _ => rfl⟩
      · intro e' he'
        have hmem : e' ∈ done ++ e :: rest := by
          rw [hsplit]
          exact List.mem_append_left _ he'
        refine present_copy hinst.coherent (by simp) hmem (hinst.sum hcontent) ?_
        rcases List.mem_append.mp he' with hd | hd
        · exact Or.inl (hinst.present e' hd)
        · exact Or.inr (List.mem_singleton.mp hd)
  | copyPart => exact inv_of_idle fun hfalse => by cases hfalse
  | finish hphase => exact inv_of_idle fun _ => consistent_finish (h.installing _ _ _ _ hphase)
  | @finishPart remote archive done part hphase hpart =>
      have hinst := h.installing _ _ _ _ hphase
      have htouched := hinst.touched (by simpa using hinst.nonempty)
      exact inv_of_idle fun hfalse => by
        rw [htouched] at hfalse
        cases hfalse
  | stop => exact inv_of_idle h.consistent

/-- A step of a sound install overwrites as it should. -/
theorem Inv.overwrites [DecidableEq σ] (h : Inv tools s) (hstep : Step tools s s')
    (hcond : Unvouched tools s s') : Overwrites tools s s' := by
  intro f hf hne
  cases hstep with
  | noUpdate => exact absurd rfl hne
  | verify => exact absurd rfl hne
  | @copy remote archive done rest e content hphase hcontent =>
      have hinst := h.installing _ _ _ _ hphase
      by_cases hslot : f = tools.slot e.1
      · subst hslot
        exact ⟨remote, archive, done, e :: rest, _, e, content, hphase, hinst.entries, by simp, rfl,
          assign_self _ _ _, hinst.sum hcontent⟩
      · exact absurd (assign_of_ne hslot) hne
  | copyPart hphase => exact absurd (congrFun (hcond.whole _ _ _ _ _ hphase rfl) f) hne
  | finish => exact absurd (assign_of_ne hf) hne
  | finishPart => exact absurd (assign_of_ne hf) hne
  | stop => exact absurd rfl hne

/-- **Upgrades.**  Over every history of runs whose steps meet the condition,
from a partition whose manifest matches its files: a run that exits with "No
update required." has a manifest on the partition that reads as the remote one
and matches the files, and files are overwritten only by content the manifest
being installed lists. -/
theorem upgrade_safe [DecidableEq σ] (tools : Tools ν σ η) (dir₀ : σ → Option Bytes)
    (hinit : Consistent tools dir₀) (s : State ν σ η)
    (hrun : Run (Step tools) (Unvouched tools) ⟨dir₀, .idle, false⟩ s) :
    (∀ remote, s.phase = .noUpdate remote →
      ∃ stored, s.dir tools.manifest = some stored ∧ capture stored = remote ∧
        Matches tools s.dir stored) ∧
      ∀ s', Step tools s s' → Unvouched tools s s' → Overwrites tools s s' := by
  have hinv : Inv tools s :=
    Run.invariant (inv_of_idle fun _ => hinit) (fun _ _ h hstep hcond => h.step hstep hcond) hrun
  refine ⟨fun remote hphase => ?_, fun s' => hinv.overwrites⟩
  obtain ⟨hpending, stored, hstored, hsame⟩ := hinv.noUpdate remote hphase
  exact ⟨stored, hstored, hsame, hinv.consistent hpending stored hstored⟩

/-! ## two releases -/

/-- The kernels of two releases. -/
def v1 : Bytes := [118, 49]

def v2 : Bytes := [118, 50]

def v1Hash : String := "1cd1a1a4ea512d936fd173605218cde57c755b8958d6611ee2fd64f4"

def v2Hash : String := "d7187951c2fbb8a2f95dccf17c9301b642ea75a737c6eb5c279c722f"

/-- Their manifests. -/
def v1Manifest : Bytes :=
  "\x7b\"hashes\":\x7b\"sha3\":\x7b\"zebrafish-kernel\":\"1cd1a1a4ea512d936fd173605218cde57c755b8958d6611ee2fd64f4\"\x7d\x7d\x7d".toUTF8.toList

def v2Manifest : Bytes :=
  "\x7b\"hashes\":\x7b\"sha3\":\x7b\"zebrafish-kernel\":\"d7187951c2fbb8a2f95dccf17c9301b642ea75a737c6eb5c279c722f\"\x7d\x7d\x7d".toUTF8.toList

def kernel : String := "zebrafish-kernel"

/-- The tools, as far as the two releases go. -/
def twoReleases : Tools String String String where
  entries text :=
    if capture text = v1Manifest then some [(kernel, v1Hash)]
    else if capture text = v2Manifest then some [(kernel, v2Hash)]
    else none
  sha3sum content := if content = v1 then v1Hash else if content = v2 then v2Hash else ""
  echoE text := text ++ [10]
  slot name := name
  manifest := "zebrafish-x64-containerd.json"

/-- The first release is installed. -/
def v1Dir : String → Option Bytes :=
  assign (assign (fun _ => none) kernel (some v1)) twoReleases.manifest (some (v1Manifest ++ [10]))

def v2Archive (name : String) : Option Bytes := if name = kernel then some v2 else none

theorem entries_v1 : twoReleases.entries (v1Manifest ++ [10]) = some [(kernel, v1Hash)] := by
  decide +kernel

theorem entries_v2 :
    twoReleases.entries (twoReleases.echoE v2Manifest) = some [(kernel, v2Hash)] := by
  decide +kernel

theorem consistent_v1Dir : Consistent twoReleases v1Dir := by
  intro stored hstored es hes e he
  rw [v1Dir, assign_self, Option.some.injEq] at hstored
  rw [← hstored, entries_v1, Option.some.injEq] at hes
  rw [← hes, List.mem_singleton] at he
  subst he
  exact ⟨v1, by decide, by decide⟩

/-- The second release passes its checks. -/
theorem verify_v2 : Step twoReleases ⟨v1Dir, .idle, false⟩
    ⟨v1Dir, .installing v2Manifest v2Archive [] [(kernel, v2Hash)], false⟩ := by
  refine .verify rfl ?_ entries_v2 (by simp) ?_
  · rintro ⟨stored, hstored, hsame⟩
    have hdir : some (v1Manifest ++ [10]) = some stored := hstored
    rw [← Option.some.inj hdir] at hsame
    revert hsame
    decide +kernel
  · intro e he
    rw [List.mem_singleton] at he
    subst he
    exact ⟨v2, by decide, by decide⟩

theorem copy_v2 : Step twoReleases
    ⟨v1Dir, .installing v2Manifest v2Archive [] [(kernel, v2Hash)], false⟩
    ⟨assign v1Dir kernel (some v2), .installing v2Manifest v2Archive [(kernel, v2Hash)] [],
      true⟩ := by
  have hphase : (⟨v1Dir, .installing v2Manifest v2Archive [] [(kernel, v2Hash)], false⟩ :
      State String String String).phase =
        .installing v2Manifest v2Archive [] ((kernel, v2Hash) :: []) := rfl
  have hcontent : v2Archive kernel = some v2 := by decide
  exact .copy hphase hcontent

/-- Installed to the end, the second release is in place when it is found to
be. -/
theorem upgrade_safe_v2 :
    ∃ s, Run (Step twoReleases) (Unvouched twoReleases) ⟨v1Dir, .idle, false⟩ s ∧
      s.phase = .noUpdate v2Manifest ∧
      ∃ stored, s.dir twoReleases.manifest = some stored ∧ capture stored = v2Manifest ∧
        Matches twoReleases s.dir stored := by
  have hverify : Unvouched twoReleases ⟨v1Dir, .idle, false⟩
      ⟨v1Dir, .installing v2Manifest v2Archive [] [(kernel, v2Hash)], false⟩ := by
    refine ⟨fun _ h => (by cases h), fun _ _ _ h => ?_, fun _ _ _ _ _ h => (by cases h)⟩
    cases h
    exact ⟨by simp, by simp [twoReleases, kernel]⟩
  have hcopy : Unvouched twoReleases
      ⟨v1Dir, .installing v2Manifest v2Archive [] [(kernel, v2Hash)], false⟩
      ⟨assign v1Dir kernel (some v2), .installing v2Manifest v2Archive [(kernel, v2Hash)] [],
        true⟩ :=
    ⟨fun _ h => (by cases h), fun _ _ _ h => (by cases h), fun _ _ _ _ _ _ h => (by cases h)⟩
  have hsame : Same twoReleases (assign (assign v1Dir kernel (some v2)) twoReleases.manifest
      (some (twoReleases.echoE v2Manifest))) v2Manifest :=
    ⟨_, assign_self _ _ _, by decide +kernel⟩
  have hfinished := ((Run.refl.snoc verify_v2 hverify).snoc copy_v2 hcopy).snoc (.finish rfl)
    ⟨fun _ h => (by cases h), fun _ _ _ h => (by cases h), fun _ _ _ _ _ h => (by cases h)⟩
  have hrun := hfinished.snoc (.noUpdate rfl hsame)
    ⟨fun _ _ => rfl, fun _ _ _ h => (by cases h), fun _ _ _ _ _ h => (by cases h)⟩
  exact ⟨_, hrun, rfl,
    (upgrade_safe twoReleases v1Dir consistent_v1Dir _ hrun).1 v2Manifest rfl⟩

/-- Cut off after its copy, the second release is followed by a remote that has
gone back to the first: nothing is found to be done, with the wrong kernel in
place. -/
theorem rollback_missed :
    ∃ s, Run (Step twoReleases) (fun _ _ => True) ⟨v1Dir, .idle, false⟩ s ∧
      s.phase = .noUpdate v1Manifest ∧
      s.dir twoReleases.manifest = some (v1Manifest ++ [10]) ∧
      ¬ Matches twoReleases s.dir (v1Manifest ++ [10]) := by
  have hsame : Same twoReleases (assign v1Dir kernel (some v2)) v1Manifest :=
    ⟨v1Manifest ++ [10], by decide +kernel, by decide +kernel⟩
  refine ⟨_, (((Run.refl.snoc verify_v2 trivial).snoc copy_v2 trivial).snoc .stop trivial).snoc
    (.noUpdate rfl hsame) trivial, rfl, by decide +kernel, ?_⟩
  intro hmatches
  obtain ⟨content, hcontent, hsum⟩ := hmatches _ entries_v1 (kernel, v1Hash) (by simp)
  have hv2 : content = v2 := by
    have hdir : some v2 = some content := hcontent
    exact (Option.some.inj hdir).symm
  rw [hv2] at hsum
  revert hsum
  decide +kernel

end Zebrafish.System.Upgrade
