import Mathlib.Data.List.Basic
import Zebrafish.Lib.Run
import Zebrafish.Lib.Words

/-!
# Zebrafish.System.Persistence

The datasets of the persistence pool (`lib/zebrafish/setup-persistence`).  At
every boot `create_zebrafish_datasets` lists the datasets once and creates each
managed one whose name is not found in that list; the swap volume is formatted
right after it is created.

A name is taken to be found wherever it occurs in a longer one, and a swap
volume that is there is taken to be formatted.  `Honest` and `Uncut` say when
both are justified, and then a boot that gets to the end has created
everything (`persistence_complete`).
-/

namespace Zebrafish.System.Persistence

open Shell

abbrev Name := List Char

/-- The pool, `ZEBRAFISH_ZPOOL`, and the names below it. -/
def zpool : Name := "zebrafish".toList

def zpoolVault : Name := zpool ++ "/vault".toList

def zpoolVaultPersistent : Name := zpoolVault ++ "/persistent".toList

def zpoolOciPersistent : Name := zpoolVaultPersistent ++ "/oci".toList

def zpoolOci : Name := zpoolVault ++ "/oci".toList

def zpoolContainerd : Name := zpoolOci ++ "/containerd".toList

def zpoolDocker : Name := zpoolOci ++ "/docker".toList

def zpoolCoolify : Name := zpoolOciPersistent ++ "/coolify".toList

def zpoolCompose : Name := zpoolVaultPersistent ++ "/compose".toList

def zpoolData : Name := zpoolVaultPersistent ++ "/data".toList

def zpoolVolumes : Name := zpoolVaultPersistent ++ "/volumes".toList

def zpoolOverlay : Name := zpoolVaultPersistent ++ "/overlay".toList

def zpoolLogs : Name := zpoolVaultPersistent ++ "/logs".toList

def zpoolSwap : Name := zpool ++ "/swap".toList

/-- What `create_zebrafish_datasets` manages, in its order. -/
def managed : List Name :=
  [zpoolVault, zpoolVaultPersistent, zpoolOciPersistent, zpoolOci, zpoolContainerd, zpoolDocker,
    zpoolCoolify, zpoolCompose, zpoolData, zpoolOverlay, zpoolLogs, zpoolVolumes, zpoolSwap]

/-- Where a boot is. -/
inductive Boot
  /-- before `create_zebrafish_datasets` -/
  | off
  /-- in it, with the list it read and what it has still to look for -/
  | creating (datasets : List Char) (rest : List Name)
  /-- between creating the swap volume and `mkswap` -/
  | formatting
  /-- at its end, without an error -/
  | finished
deriving DecidableEq

/-- The datasets of all pools, whether the swap volume is formatted, and the
boot. -/
structure State where
  datasets : List Name
  formatted : Bool
  boot : Boot
deriving DecidableEq

/-- The dataset above another one. -/
def parent (name : Name) : Name := ((name.reverse.dropWhile (· ≠ '/')).drop 1).reverse

/-- `zfs create` needs the parent, and that the dataset is not there. -/
def canCreate (s : State) (name : Name) : Bool :=
  parent name ∈ s.datasets && name ∉ s.datasets

/-- The next command of a boot, if it can succeed. -/
def advance (s : State) : Option State :=
  match s.boot with
  | .off =>
      if zpool ∈ s.datasets then
        some { s with boot := .creating (xargs s.datasets) managed }
      else
        -- `zpool create`, on a magic device
        some { s with datasets := zpool :: s.datasets }
  | .creating datasets (name :: rest) =>
      if contains datasets name then some { s with boot := .creating datasets rest }
      else if canCreate s name then
        if name = zpoolSwap then
          some ⟨name :: s.datasets, false, .formatting⟩
        else some { s with datasets := name :: s.datasets, boot := .creating datasets rest }
      else none
  | .creating _ [] => some { s with boot := .finished }
  | .formatting => some { s with formatted := true, boot := .finished }
  | .finished => none

/-- A boot goes on, or ends: interrupted, failed or finished. -/
inductive Step : State → State → Prop
  | go {s s' : State} (h : advance s = some s') : Step s s'
  | stop {s : State} : Step s { s with boot := .off }

/-- Everything is there. -/
def Complete (s : State) : Prop := (∀ name ∈ managed, name ∈ s.datasets) ∧ s.formatted = true

/-! ## when it gets there -/

/-- Every managed name that occurs in the name of a dataset is a dataset. -/
def Honest (datasets : List Name) : Prop :=
  ∀ name ∈ managed, (∃ d ∈ datasets, name <:+: d) → name ∈ datasets

/-- A boot does not stop between creating the swap volume and formatting it. -/
def Uncut (s s' : State) : Prop := s.boot = .formatting → s'.formatted = true

/-- While datasets are created: what was found in the list is there, and so is
what comes before the rest. -/
structure Listing (datasets : List Name) (listed : List Char) (rest : List Name) : Prop where
  found : ∀ name ∈ managed, contains listed name = true → name ∈ datasets
  created : ∃ done, managed = done ++ rest ∧ ∀ name ∈ done, name ∈ datasets

structure Inv (s : State) : Prop where
  honest : Honest s.datasets
  swap : zpoolSwap ∈ s.datasets → s.formatted = true ∨ s.boot = .formatting
  listing : ∀ listed rest, s.boot = .creating listed rest → Listing s.datasets listed rest
  formatting : s.boot = .formatting → ∀ name ∈ managed, name ∈ s.datasets
  finished : s.boot = .finished → Complete s

/-! ### names -/

/-- Managed names are words. -/
theorem managed_words : ∀ name ∈ managed, name ≠ [] ∧ ' ' ∉ name := by
  decide +kernel

/-- No managed name occurs in an earlier one, or in that of the pool. -/
theorem zpool_managed_pairwise : (zpool :: managed).Pairwise fun a b => ¬ b <:+: a := by
  have h : (zpool :: managed).Pairwise fun a b => contains a b = false := by decide +kernel
  exact h.imp fun hf hin => by
    rw [contains_iff.mpr hin] at hf
    cases hf

/-- No dataset hides one that comes later. -/
theorem managed_pairwise : managed.Pairwise fun a b => ¬ b <:+: a :=
  (List.pairwise_cons.mp zpool_managed_pairwise).2

/-- The pool hides no dataset. -/
theorem not_infix_zpool : ∀ name ∈ managed, ¬ name <:+: zpool :=
  (List.pairwise_cons.mp zpool_managed_pairwise).1

theorem zpoolSwap_mem_managed : zpoolSwap ∈ managed := by simp [managed]

theorem zpoolSwap_ne_zpool : zpoolSwap ≠ zpool := by
  intro heq
  exact not_infix_zpool zpoolSwap zpoolSwap_mem_managed (heq ▸ List.infix_refl zpoolSwap)

/-- The swap volume comes last. -/
theorem rest_nil_of_swap {done rest : List Name} (hsplit : managed = done ++ zpoolSwap :: rest) :
    rest = [] := by
  have hpairs := managed_pairwise
  have hlast : managed.getLast? = some zpoolSwap := rfl
  rw [hsplit] at hpairs hlast
  rw [List.pairwise_append, List.pairwise_cons] at hpairs
  by_cases hnil : rest = []
  · exact hnil
  · have hmem : zpoolSwap ∈ rest := by
      rw [List.append_cons, List.getLast?_append_of_ne_nil _ hnil] at hlast
      exact List.mem_of_getLast? hlast
    exact absurd (List.infix_refl zpoolSwap) (hpairs.2.1.1 zpoolSwap hmem)

/-! ### datasets -/

variable {datasets rest : List Name} {listed : List Char} {name : Name}

/-- Creating a managed dataset after the ones before it keeps names honest. -/
theorem Honest.create (h : Honest datasets) (hl : Listing datasets listed (name :: rest)) :
    Honest (name :: datasets) := by
  obtain ⟨done, hsplit, hdone⟩ := hl.created
  rintro m hm ⟨d, hd, hin⟩
  rcases List.mem_cons.mp hd with rfl | hd
  · have hpairs := managed_pairwise
    rw [hsplit, List.pairwise_append, List.pairwise_cons] at hpairs
    rw [hsplit] at hm
    rcases List.mem_append.mp hm with hm | hm
    · exact List.mem_cons_of_mem _ (hdone m hm)
    · rcases List.mem_cons.mp hm with rfl | hm
      · exact List.mem_cons_self
      · exact absurd hin (hpairs.2.1.1 m hm)
  · exact List.mem_cons_of_mem _ (h m hm ⟨d, hd, hin⟩)

/-- A new pool hides nothing. -/
theorem Honest.createPool (h : Honest datasets) : Honest (zpool :: datasets) := by
  rintro m hm ⟨d, hd, hin⟩
  rcases List.mem_cons.mp hd with rfl | hd
  · exact absurd hin (not_infix_zpool m hm)
  · exact List.mem_cons_of_mem _ (h m hm ⟨d, hd, hin⟩)

/-- Where names are honest, the list is not misread. -/
theorem Honest.listing (h : Honest datasets) : Listing datasets (xargs datasets) managed where
  found m hm hin := by
    obtain ⟨hne, hblank⟩ := managed_words m hm
    exact h m hm ((contains_xargs_iff hne hblank datasets).mp hin)
  created := ⟨[], rfl, by simp⟩

/-- One more dataset. -/
theorem Listing.mono (h : Listing datasets listed rest) (d : Name) :
    Listing (d :: datasets) listed rest where
  found m hm hin := List.mem_cons_of_mem d (h.found m hm hin)
  created := by
    obtain ⟨done, hsplit, hdone⟩ := h.created
    exact ⟨done, hsplit, fun m hm => List.mem_cons_of_mem d (hdone m hm)⟩

/-- The next dataset is there. -/
theorem Listing.next (h : Listing datasets listed (name :: rest)) (hname : name ∈ datasets) :
    Listing datasets listed rest where
  found := h.found
  created := by
    obtain ⟨done, hsplit, hdone⟩ := h.created
    refine ⟨done ++ [name], by rw [hsplit, List.append_cons], fun m hm => ?_⟩
    rcases List.mem_append.mp hm with hm | hm
    · exact hdone m hm
    · rw [List.mem_singleton.mp hm]
      exact hname

/-- What is left to create is managed. -/
theorem Listing.mem_managed (h : Listing datasets listed (name :: rest)) : name ∈ managed := by
  obtain ⟨done, hsplit, _⟩ := h.created
  rw [hsplit]
  simp

/-- In the end, all are there. -/
theorem Listing.all (h : Listing datasets listed []) : ∀ m ∈ managed, m ∈ datasets := by
  obtain ⟨done, hsplit, hdone⟩ := h.created
  rw [hsplit, List.append_nil]
  exact hdone

/-! ### boots -/

variable {s s' : State}

/-- All that the next command of a boot can do. -/
theorem advance_cases (h : advance s = some s') :
    (s.boot = .off ∧ s' = { s with boot := .creating (xargs s.datasets) managed }) ∨
    (s.boot = .off ∧ s' = { s with datasets := zpool :: s.datasets }) ∨
    (∃ listed name rest, s.boot = .creating listed (name :: rest) ∧
      contains listed name = true ∧ s' = { s with boot := .creating listed rest }) ∨
    (∃ listed rest, s.boot = .creating listed (zpoolSwap :: rest) ∧
      s' = ⟨zpoolSwap :: s.datasets, false, .formatting⟩) ∨
    (∃ listed name rest, s.boot = .creating listed (name :: rest) ∧ name ≠ zpoolSwap ∧
      s' = { s with datasets := name :: s.datasets, boot := .creating listed rest }) ∨
    (∃ listed, s.boot = .creating listed [] ∧ s' = { s with boot := .finished }) ∨
    (s.boot = .formatting ∧ s' = { s with formatted := true, boot := .finished }) := by
  unfold advance at h
  split at h
  · next hboot =>
      split at h
      · exact Or.inl ⟨hboot, (Option.some.inj h).symm⟩
      · exact Or.inr (Or.inl ⟨hboot, (Option.some.inj h).symm⟩)
  · next listed name rest hboot =>
      split at h
      · next hin => exact Or.inr (Or.inr (Or.inl ⟨_, _, _, hboot, hin, (Option.some.inj h).symm⟩))
      · split at h
        · split at h
          · next hname =>
              subst hname
              exact Or.inr (Or.inr (Or.inr (Or.inl ⟨_, _, hboot, (Option.some.inj h).symm⟩)))
          · next hname =>
              exact Or.inr (Or.inr (Or.inr (Or.inr (Or.inl
                ⟨_, _, _, hboot, hname, (Option.some.inj h).symm⟩))))
        · cases h
  · next listed hboot =>
      exact Or.inr (Or.inr (Or.inr (Or.inr (Or.inr (Or.inl
        ⟨_, hboot, (Option.some.inj h).symm⟩)))))
  · next hboot =>
      exact Or.inr (Or.inr (Or.inr (Or.inr (Or.inr (Or.inr
        ⟨hboot, (Option.some.inj h).symm⟩)))))
  · cases h

/-- While a boot does not format the swap volume, the one that is there is. -/
theorem Inv.formatted (h : Inv s) (hboot : s.boot ≠ .formatting) (hin : zpoolSwap ∈ s.datasets) :
    s.formatted = true := (h.swap hin).resolve_right hboot

/-- What a boot does next keeps the invariant. -/
theorem Inv.go (h : Inv s) (hgo : advance s = some s') : Inv s' := by
  obtain ⟨hboot, rfl⟩ | ⟨hboot, rfl⟩ | ⟨listed, name, rest, hboot, hin, rfl⟩ |
    ⟨listed, rest, hboot, rfl⟩ | ⟨listed, name, rest, hboot, hname, rfl⟩ | ⟨listed, hboot, rfl⟩ |
    ⟨hboot, rfl⟩ := advance_cases hgo
  · -- the datasets are listed
    refine ⟨h.honest, fun hin => Or.inl (h.formatted (by simp [hboot]) hin), ?_, by simp, by simp⟩
    rintro _ _ ⟨⟩
    exact h.honest.listing
  · -- the pool is created
    refine ⟨h.honest.createPool, ?_, by simp [hboot], by simp [hboot], by simp [hboot]⟩
    intro hin
    rcases List.mem_cons.mp hin with heq | hin
    · exact absurd heq zpoolSwap_ne_zpool
    · exact h.swap hin
  · -- found, so it is there
    have hl := h.listing _ _ hboot
    refine ⟨h.honest, fun hin => Or.inl (h.formatted (by simp [hboot]) hin), ?_, by simp, by simp⟩
    rintro _ _ ⟨⟩
    exact hl.next (hl.found name hl.mem_managed hin)
  · -- the swap volume is created
    have hl := h.listing _ _ hboot
    refine ⟨h.honest.create hl, fun _ => Or.inr rfl, by simp, fun _ => ?_, by simp⟩
    have hall := (hl.mono zpoolSwap).next List.mem_cons_self
    obtain ⟨done, hsplit, _⟩ := hl.created
    rw [rest_nil_of_swap hsplit] at hall
    exact hall.all
  · -- a dataset is created
    have hl := h.listing _ _ hboot
    refine ⟨h.honest.create hl, ?_, ?_, by simp, by simp⟩
    · intro hin
      rcases List.mem_cons.mp hin with heq | hin
      · exact absurd heq.symm hname
      · exact Or.inl (h.formatted (by simp [hboot]) hin)
    · rintro _ _ ⟨⟩
      exact (hl.mono name).next List.mem_cons_self
  · -- nothing is left to create
    have hall := (h.listing _ _ hboot).all
    have hformatted : ∀ hin : zpoolSwap ∈ s.datasets, s.formatted = true :=
      h.formatted (by simp [hboot])
    exact ⟨h.honest, fun hin => Or.inl (hformatted hin), by simp, by simp,
      fun _ => ⟨hall, hformatted (hall zpoolSwap zpoolSwap_mem_managed)⟩⟩
  · -- `mkswap`
    exact ⟨h.honest, fun _ => Or.inl rfl, by simp, by simp, fun _ => ⟨h.formatting hboot, rfl⟩⟩

/-- So does a boot that stops, unless the swap volume is not yet formatted. -/
theorem Inv.step (h : Inv s) (hstep : Step s s') (huncut : Uncut s s') : Inv s' := by
  cases hstep with
  | go hgo => exact h.go hgo
  | stop =>
      refine ⟨h.honest, ?_, by simp, by simp, by simp⟩
      intro hin
      rcases h.swap hin with hformatted | hboot
      · exact Or.inl hformatted
      · exact Or.inl (huncut hboot)

/-- A boot that gets to the end has left everything in place, in every run
from datasets with honest names and no unformatted swap volume, in which no
boot stops before its `mkswap`. -/
theorem persistence_complete {datasets : List Name} {formatted : Bool} {s : State}
    (hhonest : Honest datasets) (hswap : zpoolSwap ∈ datasets → formatted = true)
    (hrun : Run Step Uncut ⟨datasets, formatted, .off⟩ s) (hend : s.boot = .finished) :
    Complete s := by
  have hinit : Inv ⟨datasets, formatted, .off⟩ :=
    ⟨hhonest, fun hin => Or.inl (hswap hin), by simp, by simp, by simp⟩
  have hinv : Inv s := Run.invariant hinit (fun _ _ => Inv.step) hrun
  exact hinv.finished hend

/-- The first `n` commands of a boot. -/
def boot : Nat → State → Option State
  | 0, s => some s
  | n + 1, s => (advance s).bind (boot n)

/-- A boot left alone is a run, and its `mkswap` is not missed. -/
theorem run_of_boot (n : Nat) (h : boot n s = some s') : Run Step Uncut s s' := by
  induction n generalizing s with
  | zero =>
      cases h
      exact Run.refl
  | succ n ih =>
      obtain ⟨s₁, hgo, hrest⟩ := Option.bind_eq_some_iff.mp h
      have huncut : Uncut s s₁ := by
        intro hboot
        simp only [advance, hboot, Option.some.injEq] at hgo
        rw [← hgo]
      exact (Run.refl.snoc (.go hgo) huncut).trans (ih hrest)

/-- The first boot of all, up to its `mkswap`. -/
theorem boot_fresh : boot 15 ⟨[], false, .off⟩ =
    some ⟨managed.reverse ++ [zpool], false, .formatting⟩ := by
  decide +kernel

theorem persistence_complete_fresh :
    Complete ⟨managed.reverse ++ [zpool], true, .finished⟩ :=
  persistence_complete (by simp [Honest]) (by simp)
    ((run_of_boot 15 boot_fresh).snoc (.go rfl) (fun _ => rfl)) rfl

/-- The parents of datasets are datasets. -/
def Rooted (datasets : List Name) : Prop :=
  ∀ d ∈ datasets, parent d = [] ∨ parent d ∈ datasets

instance (datasets : List Name) : Decidable (Rooted datasets) :=
  inferInstanceAs (Decidable (∀ d ∈ datasets, parent d = [] ∨ parent d ∈ datasets))

def swapfile : Name := zpool ++ "/swapfile".toList

/-- With a dataset `zebrafish/swapfile` of the user's, the swap volume is never
created. -/
theorem swap_missed : ¬ ∀ (datasets : List Name) (s : State), Rooted datasets →
    Run Step (fun _ _ => True) ⟨datasets, false, .off⟩ s → s.boot = .finished → Complete s := by
  intro h
  have hboot : boot 15 ⟨[zpool, swapfile], false, .off⟩ =
      some ⟨managed.dropLast.reverse ++ [zpool, swapfile], false, .finished⟩ := by
    decide +kernel
  have hcomplete := h [zpool, swapfile] _ (by decide +kernel) (run_of_boot 15 hboot).any rfl
  exact absurd hcomplete.2 (by simp)

/-- A swap volume left unformatted by one boot is taken as it is by the
next. -/
theorem unformatted_swap : ∃ s : State, Run Step (fun _ _ => True) ⟨[], false, .off⟩ s ∧
    s.boot = .finished ∧ zpoolSwap ∈ s.datasets ∧ s.formatted = false := by
  have hnext : boot 15 ⟨managed.reverse ++ [zpool], false, .off⟩ =
      some ⟨managed.reverse ++ [zpool], false, .finished⟩ := by
    decide +kernel
  have hcut := (run_of_boot 15 boot_fresh).any.snoc .stop trivial
  exact ⟨_, hcut.trans (run_of_boot 15 hnext).any, rfl, by simp [zpoolSwap_mem_managed], rfl⟩

end Zebrafish.System.Persistence
