import Zebrafish.System.NbdGuard

/-!
# Zebrafish.System.NbdCooldown

Which suspended pools a repair cycle of `NbdHeal` resumes.

There is one cool-down for all pools: after a `zpool clear` of one of them no
other is resumed, as if it had been suspended again.  `resumes_due_iff` compares
the pools' turns in a cycle (`turns`) with turns where each pool has a cool-down
of its own (`ownTurns`).
-/

namespace Zebrafish.System.NbdHeal

open Script (Event History World visits)

/-! ## a cycle -/

/-- The first two steps of a repair cycle: attach what is missing, and look at
every device. -/
def verify (setup : Setup) : Script Ans Transport := do
  sh (.mark .repair)
  say .warn ["repair cycle started"]
  setup.clients.foldlM (fun _ c => attachMissing c) ()
  sh (.mark .attached)
  setup.clients.foldlM examine ⟨true, true⟩

/-- Where the third step is: what the cycle has come to, and what happened. -/
abbrev Point : Type := Outcome × History Ans

/-- The turn of a pool. -/
def turn (w : World Ans) (t : Transport) (s : Point) (pool : String) : Point :=
  (resume t s.1 pool).run w s.2

/-- Where the third step starts. -/
def start (w : World Ans) (setup : Setup) (lastClear : Int) (h : History Ans) : Point :=
  (⟨false, lastClear⟩, ((verify setup).run w h).2)

/-- A cycle is verifying, and then a turn for each pool. -/
theorem run_repair (w : World Ans) (setup : Setup) (lastClear : Int) (h : History Ans) :
    (repair setup lastClear).run w h =
      let s := setup.pools.foldl (turn w ((verify setup).run w h).1) (start w setup lastClear h)
      (s.1, ⟨.mark (.repaired s.1.wedged), w s.2 (.mark (.repaired s.1.wedged))⟩ :: s.2) := by
  have hparts : repair setup lastClear = (do
      let t ← verify setup
      let o ← setup.pools.foldlM (resume t) ⟨false, lastClear⟩
      sh (.mark (.repaired o.wedged))
      pure o) := by
    simp only [repair, verify, Script.bind_assoc]
  rw [hparts, Script.run_bind, Script.run_bind, Script.run_foldlM]
  rfl

/-- The pools of a cycle, each with where it has its turn. -/
def turns (w : World Ans) (setup : Setup) (lastClear : Int) (h : History Ans) :
    List (String × Point) :=
  visits (turn w ((verify setup).run w h).1) setup.pools (start w setup lastClear h)

/-- A turn only adds to the history. -/
theorem suffix_turn (w : World Ans) (t : Transport) (s : Point) (pool : String) :
    s.2 <:+ (turn w t s pool).2 := Script.suffix_run w _ _

/-- Each turn is in the cycle. -/
theorem turn_in_cycle {w : World Ans} {t : Transport} {pools : List String} {s : Point}
    {v : String × Point} (hv : v ∈ visits (turn w t) pools s) :
    s.2 <:+ v.2.2 ∧ (turn w t v.2 v.1).2 <:+ (pools.foldl (turn w t) s).2 := by
  induction pools generalizing s with
  | nil => cases hv
  | cons pool pools ih =>
      have hrest : ∀ s : Point, s.2 <:+ (pools.foldl (turn w t) s).2 := by
        clear ih hv
        induction pools with
        | nil => exact fun s => List.suffix_refl _
        | cons pool pools ih => exact fun s => (suffix_turn w t s pool).trans (ih _)
      rcases List.mem_cons.mp hv with rfl | hv
      · exact ⟨List.suffix_refl _, hrest _⟩
      · obtain ⟨hstart, hend⟩ := ih hv
        exact ⟨(suffix_turn w t s pool).trans hstart, hend⟩

/-! ## the turn of a pool -/

/-- The timestamps of the `zpool clear` commands for a pool. -/
def clearTimesOf (pool : String) : History Ans → List Int
  | [] => []
  | ⟨.zpoolClear p, _⟩ :: h =>
      if p = pool then latest h :: clearTimesOf pool h else clearTimesOf pool h
  | _ :: h => clearTimesOf pool h

/-- The pool is suspended. -/
def Suspended (w : World Ans) (pool : String) (s : Point) : Prop :=
  w s.2 (.zpoolList pool) = some .suspended

instance (w : World Ans) (pool : String) (s : Point) : Decidable (Suspended w pool s) :=
  inferInstanceAs (Decidable (_ = _))

/-- The time when its state is known. -/
def clock (w : World Ans) (pool : String) (s : Point) : Int :=
  w (⟨.zpoolList pool, w s.2 (.zpoolList pool)⟩ :: s.2) .date

/-- It was not cleared itself within the cool-down. -/
def Due (w : World Ans) (pool : String) (s : Point) : Prop :=
  ∀ time ∈ clearTimesOf pool s.2, clearCooldown ≤ clock w pool s - time

instance (w : World Ans) (pool : String) (s : Point) : Decidable (Due w pool s) :=
  inferInstanceAs (Decidable (∀ _ ∈ _, _))

/-- Some pool was cleared within the cool-down. -/
def Blocked (w : World Ans) (pool : String) (s : Point) : Prop :=
  clock w pool s - s.1.lastClear < clearCooldown ∧ 0 < s.1.lastClear

/-- A `zpool clear` for the pool comes between two points. -/
def Issued (pool : String) (s s' : Point) : Prop :=
  ∃ ok past, ⟨.zpoolClear pool, ok⟩ :: past <:+ s'.2 ∧ s.2 <:+ past

instance (w : World Ans) (pool : String) (s : Point) : Decidable (Blocked w pool s) :=
  inferInstanceAs (Decidable (_ ∧ _))

/-- The end of a turn that gets to `zpool clear`. -/
def clearing (o : Outcome) (pool : String) : Script Ans Outcome := do
  say .warn ["pool " ++ pool ++ " is suspended; transport verified, resuming with zpool clear"]
  let lastClear ← sh .date
  let ok ← sh (.zpoolClear pool)
  if ok then
    sh (.sleep 2)
    let after ← poolState pool
    if after = some .online then
      say .info ["pool " ++ pool ++ ": resumed, state=ONLINE"]
      pure { o with lastClear }
    else
      say .crit ["pool " ++ pool ++ ": zpool clear returned success but state=" ++
        resume.stateName after]
      pure ⟨true, lastClear⟩
  else
    say .crit ["pool " ++ pool ++ ": zpool clear failed"]
    pure ⟨true, lastClear⟩

section

variable {w : World Ans} {pool : String} {s : Point}

/-- What happened when the time of a turn is known. -/
def timed (w : World Ans) (pool : String) (s : Point) : History Ans :=
  ⟨.date, clock w pool s⟩ :: ⟨.zpoolList pool, w s.2 (.zpoolList pool)⟩ :: s.2

/-- A suspended pool that is not blocked is cleared. -/
theorem turn_free (hsus : Suspended w pool s) (hfree : ¬ Blocked w pool s) :
    turn w ⟨true, true⟩ s pool = (clearing s.1 pool).run w (timed w pool s) := by
  have hlist : w s.2 (.zpoolList pool) = some .suspended := hsus
  have htest : ¬ (w (⟨.zpoolList pool, some .suspended⟩ :: s.2) .date - s.1.lastClear <
      clearCooldown ∧ 0 < s.1.lastClear) := by
    simpa only [Blocked, clock, hlist] using hfree
  rw [turn, resume, Script.run_bind]
  simp only [poolState, sh, Script.command, Script.run, hlist, timed, clock, Bool.true_eq_false,
    or_self, if_false]
  rw [Script.run_bind]
  simp only [Script.run, htest, if_false]
  rfl

/-- One that is blocked gets a message only. -/
theorem turn_blocked (hsus : Suspended w pool s) (hblocked : Blocked w pool s) :
    ∃ level text, (turn w ⟨true, true⟩ s pool).2 = ⟨.say level text, ()⟩ :: timed w pool s := by
  have hlist : w s.2 (.zpoolList pool) = some .suspended := hsus
  have htest : w (⟨.zpoolList pool, some .suspended⟩ :: s.2) .date - s.1.lastClear <
      clearCooldown ∧ 0 < s.1.lastClear := by
    simpa only [Blocked, clock, hlist] using hblocked
  rw [turn, resume, Script.run_bind]
  simp only [poolState, sh, Script.command, Script.run, hlist, timed, clock, Bool.true_eq_false,
    or_self, if_false]
  rw [Script.run_bind]
  simp only [Script.run, htest, and_self, if_true]
  exact ⟨_, _, rfl⟩

/-- A pool that may be cleared is cleared. -/
theorem issued_of_free (hsus : Suspended w pool s) (hfree : ¬ Blocked w pool s) :
    Issued pool s (turn w ⟨true, true⟩ s pool) := by
  rw [turn_free hsus hfree, clearing, Script.run_bind, Script.run_bind, Script.run_bind]
  exact ⟨_, _, Script.suffix_run w _ _, ⟨[_, _, _, _], rfl⟩⟩

/-- A pool that may not be cleared is not. -/
theorem not_issued_of_blocked (hsus : Suspended w pool s) (hblocked : Blocked w pool s) :
    ¬ Issued pool s (turn w ⟨true, true⟩ s pool) := by
  rintro ⟨ok, past, hin, hpast⟩
  obtain ⟨level, text, hturn⟩ := turn_blocked hsus hblocked
  rw [hturn, timed] at hin
  have hold : ⟨.zpoolClear pool, ok⟩ :: past <:+ s.2 := by
    simpa [List.suffix_cons_iff] using hin
  have hlong := hold.length_le
  have hshort := hpast.length_le
  rw [List.length_cons] at hlong
  omega

end

/-- What is issued in a turn is issued in the cycle. -/
theorem issued_in_cycle {w : World Ans} {setup : Setup} {lastClear : Int} {h : History Ans}
    (hverified : ((verify setup).run w h).1 = ⟨true, true⟩) {v : String × Point}
    (hv : v ∈ turns w setup lastClear h)
    (hissued : Issued v.1 v.2 (turn w ⟨true, true⟩ v.2 v.1)) :
    Issued v.1 (⟨false, lastClear⟩, h) ((repair setup lastClear).run w h) := by
  obtain ⟨ok, past, hin, hpast⟩ := hissued
  rw [turns, hverified] at hv
  obtain ⟨hstart, hend⟩ := turn_in_cycle hv
  rw [run_repair, hverified]
  refine ⟨ok, past, (hin.trans hend).trans (List.suffix_cons _ _), ?_⟩
  exact ((Script.suffix_run w (verify setup) h).trans hstart).trans hpast

/-! ## a cool-down for each pool -/

/-- The turn of a pool whose own last `zpool clear` is the only one that counts. -/
def ownTurn (w : World Ans) (t : Transport) (s : Point) (pool : String) : Point :=
  if Suspended w pool s ∧ Due w pool s then turn w t ({ s.1 with lastClear := 0 }, s.2) pool
  else turn w t s pool

/-- The pools of a cycle with a cool-down for each pool. -/
def ownTurns (w : World Ans) (setup : Setup) (lastClear : Int) (h : History Ans) :
    List (String × Point) :=
  visits (ownTurn w ((verify setup).run w h).1) setup.pools (start w setup lastClear h)

/-- Where no pool is blocked by another, both cool-downs are the same. -/
theorem ownTurn_eq {w : World Ans} {pool : String} {s : Point}
    (h : Suspended w pool s → Due w pool s → ¬ Blocked w pool s) :
    ownTurn w ⟨true, true⟩ s pool = turn w ⟨true, true⟩ s pool := by
  unfold ownTurn
  split
  · next hdue =>
      obtain ⟨hsus, hdue⟩ := hdue
      have hnever : ¬ Blocked w pool ({ s.1 with lastClear := 0 }, s.2) := by
        rintro ⟨_, hzero⟩
        exact Int.lt_irrefl 0 hzero
      rw [turn_free (s := ({ s.1 with lastClear := 0 }, s.2)) hsus hnever,
        turn_free hsus (h hsus hdue)]
      rfl
  · rfl

/-- **Resuming all that is due.**  Over a verified transport, each suspended pool
that was not cleared within the cool-down is cleared in its turn, if and only if
no such pool would have its turn within the cool-down of another one, were the
cool-down asked of each pool on its own.  What is issued in a turn is in the
history of the cycle. -/
theorem resumes_due_iff (w : World Ans) (setup : Setup) (lastClear : Int) (h : History Ans)
    (hverified : ((verify setup).run w h).1 = ⟨true, true⟩) :
    ((∀ v ∈ turns w setup lastClear h, Suspended w v.1 v.2 → Due w v.1 v.2 →
        Issued v.1 v.2 (turn w ⟨true, true⟩ v.2 v.1)) ↔
      ∀ v ∈ ownTurns w setup lastClear h, Suspended w v.1 v.2 → Due w v.1 v.2 →
        ¬ Blocked w v.1 v.2) ∧
    ∀ v ∈ turns w setup lastClear h, Issued v.1 v.2 (turn w ⟨true, true⟩ v.2 v.1) →
      Issued v.1 (⟨false, lastClear⟩, h) ((repair setup lastClear).run w h) := by
  refine ⟨?_, fun v hv hissued => issued_in_cycle hverified hv hissued⟩
  rw [turns, ownTurns, hverified]
  constructor
  · intro hall
    have hfree : ∀ v ∈ visits (turn w ⟨true, true⟩) setup.pools (start w setup lastClear h),
        Suspended w v.1 v.2 → Due w v.1 v.2 → ¬ Blocked w v.1 v.2 := by
      intro v hv hsus hdue hblocked
      exact not_issued_of_blocked hsus hblocked (hall v hv hsus hdue)
    have hsame := Script.visits_congr fun v hv => (ownTurn_eq (hfree v hv)).symm
    rwa [hsame] at hfree
  · intro hfree
    have hsame := Script.visits_congr fun v hv => ownTurn_eq (hfree v hv)
    rw [hsame] at hfree
    intro v hv hsus hdue
    exact issued_of_free hsus (hfree v hv hsus hdue)

/-- One device under some pools. -/
def onePath (pools : List String) : Setup :=
  ⟨[⟨"10.0.0.1", "10809", "/dev/nbd0", "export", "180"⟩], pools⟩

/-- A clock by which a `zpool clear` takes ten minutes. -/
def slowClear (h : History Ans) : Int := ticking h + 600 * (clearTimes h).length

/-- Two suspended pools are both cleared, since the first takes its time. -/
theorem resumes_due_both :
    let s := (repair (onePath ["tank", "vault"]) 0).run (stuck slowClear) []
    (∃ ok past, ⟨.zpoolClear "tank", ok⟩ :: past <:+ s.2) ∧
      ∃ ok past, ⟨.zpoolClear "vault", ok⟩ :: past <:+ s.2 := by
  intro s
  let w := stuck slowClear
  let setup := onePath ["tank", "vault"]
  let second := turn w ⟨true, true⟩ (start w setup 0 []) "tank"
  obtain ⟨hiff, hcycle⟩ := resumes_due_iff w setup 0 [] rfl
  have hall := hiff.mpr (by decide +kernel)
  have hfirst : ("tank", start w setup 0 []) ∈ turns w setup 0 [] := List.mem_cons_self
  have hsecond : ("vault", second) ∈ turns w setup 0 [] :=
    List.mem_cons_of_mem _ List.mem_cons_self
  have hissued : ∀ v ∈ turns w setup 0 [], Suspended w v.1 v.2 → Due w v.1 v.2 →
      ∃ ok past, ⟨.zpoolClear v.1, ok⟩ :: past <:+ s.2 := by
    intro v hv hsus hdue
    obtain ⟨ok, past, hin, -⟩ := hcycle v hv (hall v hv hsus hdue)
    exact ⟨ok, past, hin⟩
  exact ⟨hissued _ hfirst rfl (by decide +kernel), hissued _ hsecond rfl (by decide +kernel)⟩

/-- Of two suspended pools the second is passed over. -/
theorem second_pool_left : ¬ ∀ (w : World Ans) (setup : Setup) (lastClear : Int)
    (h : History Ans), ((verify setup).run w h).1 = ⟨true, true⟩ →
      ∀ v ∈ turns w setup lastClear h, Suspended w v.1 v.2 → Due w v.1 v.2 →
        Issued v.1 v.2 (turn w ⟨true, true⟩ v.2 v.1) := by
  intro hall
  let w := stuck ticking
  let setup := onePath ["tank", "vault"]
  let second := turn w ⟨true, true⟩ (start w setup 0 []) "tank"
  have hmem : ("vault", second) ∈ turns w setup 0 [] := List.mem_cons_of_mem _ List.mem_cons_self
  have hsus : Suspended w "vault" second := rfl
  have hdue : Due w "vault" second := by decide +kernel
  have hblocked : Blocked w "vault" second := by decide +kernel
  have hverified : ((verify setup).run w []).1 = ⟨true, true⟩ := rfl
  clear_value second
  exact not_issued_of_blocked hsus hblocked (hall w setup 0 [] hverified _ hmem hsus hdue)

end Zebrafish.System.NbdHeal
