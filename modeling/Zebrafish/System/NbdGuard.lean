import Zebrafish.System.NbdHeal

/-!
# Zebrafish.System.NbdGuard

What the daemon of `NbdHeal` keeps to, read off the history of a run.

`Guarded` says it of a history, `guar` of one event and its past.  The proof
follows the loops of the source: `Framed` is what looking at devices and pools
leaves alone, `Seen` what the verification of a device leaves behind, `Inv`
what holds between two rounds.
-/

namespace Zebrafish.System.NbdHeal

open Script (Event History World Always wp)

/-! ## reading the history -/

/-- The readings of the clock, newest first. -/
def readings : History Ans → List Int
  | [] => []
  | ⟨.date, t⟩ :: h => t :: readings h
  | _ :: h => readings h

/-- The last one. -/
def latest (h : History Ans) : Int := (readings h).headD 0

def marks : History Ans → List Mark
  | [] => []
  | ⟨.mark m, _⟩ :: h => m :: marks h
  | _ :: h => marks h

/-- The events since the last mark. -/
def recent : History Ans → History Ans
  | [] => []
  | ⟨.mark _, _⟩ :: _ => []
  | e :: h => e :: recent h

/-- The devices as last discovered. -/
def supervised : History Ans → List Client
  | [] => []
  | ⟨.discover, setup⟩ :: _ => setup.clients
  | _ :: h => supervised h

/-- What the size of a device was last read as. -/
def lastSize (dev : String) : History Ans → Option Nat
  | [] => none
  | ⟨.size d, r⟩ :: h => if d = dev then some (r.getD 0) else lastSize dev h
  | _ :: h => lastSize dev h

/-- The timestamps of the `zpool clear` commands: the clock is read right
before each. -/
def clearTimes : History Ans → List Int
  | [] => []
  | ⟨.zpoolClear _, _⟩ :: h => latest h :: clearTimes h
  | _ :: h => clearTimes h

def justWedged : History Ans → Bool
  | ⟨.mark (.repaired true), _⟩ :: _ => true
  | _ => false

/-- The timestamps of the repairs that ended wedged: the clock is read right
after each. -/
def wedgedTimes : History Ans → List Int
  | [] => []
  | ⟨.date, t⟩ :: h => if justWedged h then t :: wedgedTimes h else wedgedTimes h
  | _ :: h => wedgedTimes h

/-- The bad checks in a row since the last good check or repair. -/
def badChecks (h : History Ans) : Nat := ((marks h).takeWhile (· = .checked true)).length

/-- Since the last mark, the device was attached and answered a probe. -/
def Seen (h : History Ans) (c : Client) : Prop :=
  (∃ n, n ≠ 0 ∧ ⟨.size c.dev, some n⟩ ∈ recent h) ∧ ⟨.dd c.dev, true⟩ ∈ recent h

/-- In a repair cycle whose attach phase is over, with all devices seen. -/
def Verified (h : History Ans) : Prop :=
  (∃ ms, marks h = .attached :: .repair :: ms) ∧ ∀ c ∈ supervised h, Seen h c

/-- All wedged repairs are long ago. -/
def Rested (h : History Ans) : Prop := ∀ t ∈ wedgedTimes h, t + wedgedRest ≤ latest h

/-- What the daemon keeps to. -/
structure Guarded (h : History Ans) : Prop where
  verified : ∀ pool ok past, ⟨.zpoolClear pool, ok⟩ :: past <:+ h → Verified past
  stamped : ∀ pool ok past, ⟨.zpoolClear pool, ok⟩ :: past <:+ h →
    ∃ t past', past = ⟨.date, t⟩ :: past'
  spaced : (clearTimes h).Pairwise fun later earlier => earlier + clearCooldown ≤ later
  threshold : ∀ past, ⟨.mark .repair, ()⟩ :: past <:+ h → failThreshold ≤ badChecks past
  rested : ∀ past, ⟨.mark .repair, ()⟩ :: past <:+ h → Rested past
  detached : ∀ args addr port dev past, ⟨.nbdClient args addr port dev, ()⟩ :: past <:+ h →
    lastSize dev past = some 0

/-- The clock does not run backwards. -/
def Steady (h : History Ans) : Prop := (readings h).Pairwise (· ≥ ·)

/-- It is past 1970. -/
def Positive (h : History Ans) : Prop := ∀ t ∈ readings h, 0 < t

/-! ## one event at a time -/

def rely : Event Ans → History Ans → Prop
  | ⟨.date, t⟩, h => 0 < t ∧ ∀ t' ∈ readings h, t' ≤ t
  | _, _ => True

def guar : Event Ans → History Ans → Prop
  | ⟨.zpoolClear _, _⟩, h => Verified h ∧ (∃ t past, h = ⟨.date, t⟩ :: past) ∧
      ∀ t ∈ clearTimes h, t + clearCooldown ≤ latest h
  | ⟨.mark .repair, _⟩, h => failThreshold ≤ badChecks h ∧ Rested h
  | ⟨.nbdClient _ _ _ dev, _⟩, h => lastSize dev h = some 0
  | _, _ => True

/-- What the properties of the clock say of each reading. -/
theorem always_rely {h : History Ans} (hsteady : Steady h) (hpos : Positive h) :
    Always rely h := by
  induction h with
  | nil => exact Always.nil
  | cons e h ih =>
      obtain ⟨c, r⟩ := e
      cases c with
      | date =>
          obtain ⟨hle, hsteady⟩ := List.pairwise_cons.mp hsteady
          refine Always.cons ⟨hpos r List.mem_cons_self, hle⟩ (ih hsteady ?_)
          exact fun t ht => hpos t (List.mem_cons_of_mem r ht)
      | _ => exact Always.cons trivial (ih hsteady hpos)

/-- The guarantees of the events are what is to be shown of a history. -/
theorem guarded_of_always {h : History Ans} (hguar : Always guar h) : Guarded h where
  verified _ _ past hin := (hguar _ past hin).1
  stamped _ _ past hin := (hguar _ past hin).2.1
  threshold past hin := (hguar _ past hin).1
  rested past hin := (hguar _ past hin).2
  detached _ _ _ _ past hin := hguar _ past hin
  spaced := by
    induction h with
    | nil => exact List.Pairwise.nil
    | cons e h ih =>
        have hpast := ih (hguar.of_suffix (List.suffix_cons e h))
        have hnow := hguar e h (List.suffix_refl _)
        obtain ⟨c, r⟩ := e
        cases c with
        | zpoolClear pool => exact List.pairwise_cons.mpr ⟨hnow.2.2, hpast⟩
        | _ => exact hpast

/-! ## looking, attaching -/

variable {h₀ h : History Ans}

/-- Commands that neither decide nor resume anything. -/
def quiet : Cmd → Bool
  | .size _ | .dd _ | .zpoolList _ | .nbdClient .. | .sleep _ | .say .. => true
  | _ => false

/-- Nothing but quiet commands since `h₀`. -/
structure Framed (h₀ h : History Ans) : Prop where
  readings : readings h = readings h₀
  marks : marks h = marks h₀
  supervised : supervised h = supervised h₀
  clearTimes : clearTimes h = clearTimes h₀
  wedgedTimes : wedgedTimes h = wedgedTimes h₀

theorem Framed.refl : Framed h h := ⟨rfl, rfl, rfl, rfl, rfl⟩

/-- A quiet command goes on with the frame. -/
theorem Framed.cons (hf : Framed h₀ h) {e : Event Ans} (he : quiet e.1 = true) :
    Framed h₀ (e :: h) := by
  obtain ⟨c, r⟩ := e
  cases c <;> first
    | exact ⟨hf.readings, hf.marks, hf.supervised, hf.clearTimes, hf.wedgedTimes⟩
    | cases he

/-- In between, the clock has not been read. -/
theorem Framed.latest (hf : Framed h₀ h) : latest h = latest h₀ := by
  rw [NbdHeal.latest, hf.readings, NbdHeal.latest]

/-- In between, nothing was repaired. -/
theorem Framed.rested (hf : Framed h₀ h) (hrested : Rested h₀) : Rested h := by
  intro t ht
  rw [hf.wedgedTimes] at ht
  rw [hf.latest]
  exact hrested t ht

/-- One command: whatever it may answer, what it guarantees and what follows. -/
@[simp] theorem wp_sh {c : Cmd} {Q : Ans c → History Ans → Prop} :
    @wp Cmd Ans (no_index (Ans c)) rely guar (sh c) Q h ↔
      ∀ r, rely ⟨c, r⟩ h → guar ⟨c, r⟩ h ∧ Q r (⟨c, r⟩ :: h) := Script.wp_command

/-- A message is one event. -/
@[simp] theorem wp_say {level : Level} {words : List String} {Q : Unit → History Ans → Prop} :
    wp rely guar (say level words) Q h ↔
      Q () (⟨.say level (" ".intercalate words), ()⟩ :: h) :=
  ⟨fun hp => (hp () trivial).2, fun hQ _ _ => ⟨trivial, hQ⟩⟩

/-- A size that cannot be read counts as none. -/
@[simp] theorem wp_devSize {dev : String} {Q : Nat → History Ans → Prop} :
    wp rely guar (devSize dev) Q h ↔ ∀ r, Q (r.getD 0) (⟨.size dev, r⟩ :: h) := by
  simp [devSize, rely, guar]

/-- A probe is one read of the device. -/
@[simp] theorem wp_probeOnce {dev : String} {Q : Bool → History Ans → Prop} :
    wp rely guar (probeOnce dev) Q h ↔ ∀ r, Q r (⟨.dd dev, r⟩ :: h) :=
  ⟨fun hp r => (hp r trivial).2, fun hQ r _ => ⟨trivial, hQ r⟩⟩

/-- A device is missing just if its size is not there or zero. -/
@[simp] theorem wp_devState {dev : String} {Q : DevState → History Ans → Prop} :
    wp rely guar (devState dev) Q h ↔
      (∀ r : Option Nat, r.getD 0 = 0 → Q .missing (⟨.size dev, r⟩ :: h)) ∧
        ∀ r : Option Nat, r.getD 0 ≠ 0 → Q .attached (⟨.size dev, r⟩ :: h) := by
  simp only [devState, Script.wp_bind, wp_devSize, Script.wp_pure]
  constructor
  · intro hp
    refine ⟨fun r hr => ?_, fun r hr => ?_⟩
    · simpa only [if_pos hr] using hp r
    · simpa only [if_neg hr] using hp r
  · rintro ⟨hzero, hne⟩ r
    split
    · next hr => exact hzero r hr
    · next hr => exact hne r hr

/-- The state of a pool is one answer of zpool. -/
@[simp] theorem wp_poolState {pool : String} {Q : Option Health → History Ans → Prop} :
    wp rely guar (poolState pool) Q h ↔ ∀ r, Q r (⟨.zpoolList pool, r⟩ :: h) := by
  simp [poolState, rely, guar]

/-- Waiting for a device is quiet. -/
theorem framed_awaitSize (hf : Framed h₀ h) (dev : String) (n : Nat) :
    wp rely guar (awaitSize dev n) (fun _ => Framed h₀) h := by
  induction n generalizing h with
  | zero => exact hf
  | succ n ih =>
      simp only [awaitSize, Script.wp_bind, wp_devSize]
      intro r
      split
      · exact hf.cons rfl
      · rw [Script.wp_bind, wp_sh]
        exact fun _ _ => ⟨trivial, ih ((hf.cons rfl).cons rfl)⟩

/-- The only devices attached are those without a size. -/
theorem framed_attachMissing (hf : Framed h₀ h) (c : Client) :
    wp rely guar (attachMissing c) (fun _ => Framed h₀) h := by
  simp only [attachMissing, attachDev, Script.wp_bind, wp_devState, reduceIte, reduceCtorEq,
    wp_say, Script.wp_pure]
  refine ⟨fun r hr => ?_, fun r _ => hf.cons rfl⟩
  rw [wp_sh]
  refine fun _ _ => ⟨?_, ?_⟩
  · simp only [guar, lastSize, reduceIte, hr]
  · refine Script.wp_mono (framed_awaitSize (((hf.cons ?_).cons ?_).cons ?_) c.dev 30) ?_
    · rfl
    · rfl
    · rfl
    · intro ok h hf
      split
      · exact wp_say.mpr (hf.cons rfl)
      · exact wp_say.mpr (hf.cons rfl)

/-- Looking at a device is quiet. -/
theorem framed_checkClient (hf : Framed h₀ h) (bad : Bool) (c : Client) :
    wp rely guar (checkClient bad c) (fun _ => Framed h₀) h := by
  simp only [checkClient, Script.wp_bind, wp_devState, Script.wp_pure]
  exact ⟨fun r _ => hf.cons rfl, fun r _ => hf.cons rfl⟩

/-- Looking at a pool is quiet. -/
theorem framed_checkPool (hf : Framed h₀ h) (bad : Bool) (pool : String) :
    wp rely guar (checkPool bad pool) (fun _ => Framed h₀) h := by
  simp only [checkPool, Script.wp_bind, wp_poolState, Script.wp_pure]
  exact fun r => hf.cons rfl

/-! ## verifying -/

theorem not_mark_of_quiet {c : Cmd} (hc : quiet c = true) (m : Mark) : c ≠ .mark m := by
  rintro rfl
  cases hc

/-- An event of this cycle stays one of it until the next mark. -/
theorem mem_recent_cons {e e' : Event Ans} (he : ∀ m, e.1 ≠ .mark m) (hmem : e' ∈ recent h) :
    e' ∈ recent (e :: h) := by
  obtain ⟨c, r⟩ := e
  cases c with
  | mark m => exact absurd rfl (he m)
  | _ => exact List.mem_cons_of_mem _ hmem

/-- What was seen in this cycle stays seen. -/
theorem Seen.cons {c : Client} (hs : Seen h c) {e : Event Ans} (he : ∀ m, e.1 ≠ .mark m) :
    Seen (e :: h) c := by
  obtain ⟨⟨n, hn, hsize⟩, hdd⟩ := hs
  exact ⟨⟨n, hn, mem_recent_cons he hsize⟩, mem_recent_cons he hdd⟩

/-- What is still to do or was seen, if all is well so far. -/
structure Examining (h₀ : History Ans) (clients rest : List Client) (t : Transport)
    (h : History Ans) : Prop where
  framed : Framed h₀ h
  seen : t.allAttached = true → t.allAnswer = true → ∀ c ∈ clients, c ∈ rest ∨ Seen h c

/-- A device that is attached and answers is seen. -/
theorem seen_of_probe {c : Client} {r : Option Nat} (hr : r.getD 0 ≠ 0)
    (hsize : ⟨.size c.dev, r⟩ ∈ recent h) (hdd : ⟨.dd c.dev, true⟩ ∈ recent h) : Seen h c := by
  cases r with
  | none => exact absurd rfl hr
  | some n => exact ⟨⟨n, hr, hsize⟩, hdd⟩

section

variable {clients rest : List Client} {t : Transport} {c : Client}

/-- Quiet commands do not disturb the look at the devices. -/
theorem Examining.quiet (hI : Examining h₀ clients rest t h) {e : Event Ans}
    (he : quiet e.1 = true) : Examining h₀ clients rest t (e :: h) := by
  refine ⟨hI.framed.cons he, fun hattached hanswer c hc => ?_⟩
  exact (hI.seen hattached hanswer c hc).imp_right fun hs => hs.cons (not_mark_of_quiet he)

/-- A device that was seen to be attached needs no more. -/
theorem Examining.seen_head (hI : Examining h₀ clients (c :: rest) t h) (hs : Seen h c) :
    Examining h₀ clients rest t h := by
  refine ⟨hI.framed, fun hattached hanswer d hd => ?_⟩
  rcases hI.seen hattached hanswer d hd with hmem | hseen
  · rcases List.mem_cons.mp hmem with rfl | hmem
    · exact Or.inr hs
    · exact Or.inl hmem
  · exact Or.inr hseen

/-- One device of the loop over the devices. -/
theorem wp_examine (hI : Examining h₀ clients (c :: rest) t h) :
    wp rely guar (examine t c) (Examining h₀ clients rest) h := by
  simp only [examine, probeDev, Script.wp_bind, wp_devState, reduceIte, reduceCtorEq,
    wp_probeOnce, Script.wp_pure]
  refine ⟨fun r _ => ⟨hI.framed.cons rfl, by simp⟩, fun r hr ok => ?_⟩
  have hI' := hI.quiet (e := ⟨.size c.dev, r⟩) rfl
  cases ok with
  | true =>
      simp only [reduceIte, Script.wp_pure]
      exact (hI'.quiet rfl).seen_head (seen_of_probe hr (by simp [recent]) (by simp [recent]))
  | false =>
      simp only [reduceIte, Bool.false_eq_true, Script.wp_bind, wp_sh, wp_probeOnce]
      refine fun _ _ => ⟨trivial, fun ok => ?_⟩
      cases ok with
      | true =>
          simp only [reduceIte, Script.wp_pure]
          exact (((hI'.quiet rfl).quiet rfl).quiet rfl).seen_head
            (seen_of_probe hr (by simp [recent]) (by simp [recent]))
      | false =>
          simp only [reduceIte, Bool.false_eq_true, Script.wp_bind, wp_say, Script.wp_pure]
          exact ⟨((((hI.framed.cons rfl).cons rfl).cons rfl).cons rfl).cons rfl, by simp⟩

end

/-! ## resuming -/

/-- All `zpool clear` commands were issued by `lastClear`. -/
def Cleared (lastClear : Int) (h : History Ans) : Prop :=
  ∀ t ∈ clearTimes h, 0 < lastClear ∧ t ≤ lastClear

/-- What holds while pools are resumed. -/
structure Resuming (t : Transport) (lastClear : Int) (h : History Ans) : Prop where
  cycle : ∃ ms, marks h = .attached :: .repair :: ms
  seen : t.allAttached = true → t.allAnswer = true → ∀ c ∈ supervised h, Seen h c
  cleared : Cleared lastClear h
  rested : Rested h

section

variable {t : Transport} {lastClear : Int}

/-- Quiet commands do not disturb the loop over the pools. -/
theorem Resuming.quiet (hI : Resuming t lastClear h) {e : Event Ans} (he : quiet e.1 = true) :
    Resuming t lastClear (e :: h) := by
  have hf : Framed h (e :: h) := Framed.refl.cons he
  refine ⟨?_, ?_, ?_, hf.rested hI.rested⟩
  · rw [hf.marks]
    exact hI.cycle
  · rw [hf.supervised]
    exact fun hattached hanswer c hc => (hI.seen hattached hanswer c hc).cons (not_mark_of_quiet he)
  · rw [Cleared, hf.clearTimes]
    exact hI.cleared

/-- A reading is not before an earlier one. -/
theorem latest_le {now : Int} (hrely : rely ⟨.date, now⟩ h) : latest h ≤ now := by
  unfold latest
  cases hread : readings h with
  | nil => exact Int.le_of_lt hrely.1
  | cons s l => exact hrely.2 s (hread ▸ List.mem_cons_self)

/-- The clock only makes what was rested more so. -/
theorem rested_date {now : Int} (hrely : rely ⟨.date, now⟩ h) (hwedged : justWedged h = false)
    (hrested : Rested h) : Rested (⟨.date, now⟩ :: h) := by
  intro s hs
  simp only [wedgedTimes, hwedged, Bool.false_eq_true, reduceIte] at hs
  exact Int.le_trans (hrested s hs) (latest_le hrely)

/-- Reading the clock goes on with the loop over the pools. -/
theorem Resuming.date {now : Int} (hI : Resuming t lastClear h) (hrely : rely ⟨.date, now⟩ h)
    (hwedged : justWedged h = false) : Resuming t lastClear (⟨.date, now⟩ :: h) :=
  ⟨hI.cycle, fun hattached hanswer c hc => (hI.seen hattached hanswer c hc).cons (by simp),
    hI.cleared, rested_date hrely hwedged hI.rested⟩

/-- A clear at the time just read, which is remembered as the last one. -/
theorem Resuming.clear {now : Int} (hI : Resuming t lastClear (⟨.date, now⟩ :: h))
    (hpos : 0 < now) (hle : ∀ s ∈ clearTimes h, s ≤ now) (pool : String) (ok : Bool) :
    Resuming t now (⟨.zpoolClear pool, ok⟩ :: ⟨.date, now⟩ :: h) := by
  refine ⟨hI.cycle, fun hattached hanswer c hc =>
    (hI.seen hattached hanswer c hc).cons (by simp), ?_, hI.rested⟩
  intro s hs
  rcases List.mem_cons.mp hs with rfl | hs
  · exact ⟨hpos, Int.le_refl _⟩
  · exact ⟨hpos, hle s hs⟩

/-- Past the test of the script, a clear has had its cool-down. -/
theorem cooled {now stamp s : Int} (hcool : ¬ (now - lastClear < clearCooldown ∧ 0 < lastClear))
    (hpos : 0 < lastClear) (hle : s ≤ lastClear) (hnext : now ≤ stamp) :
    s + clearCooldown ≤ stamp := by
  omega

/-- One pool of the loop over the pools. -/
theorem wp_resume {o : Outcome} (hI : Resuming t o.lastClear h) (pool : String) :
    wp rely guar (resume t o pool) (fun o => Resuming t o.lastClear) h := by
  simp only [resume, Script.wp_bind, wp_poolState]
  intro state
  have hI₁ := hI.quiet (e := ⟨.zpoolList pool, state⟩) rfl
  cases state with
  | none =>
      simp only [Script.wp_bind, wp_say, Script.wp_pure]
      exact hI₁.quiet rfl
  | some health =>
      cases health with
      | suspended =>
          simp only
          split
          · simp only [Script.wp_bind, wp_say, Script.wp_pure]
            exact hI₁.quiet rfl
          · next hok =>
              simp only [Script.wp_bind, wp_sh]
              intro now hnow
              refine ⟨trivial, ?_⟩
              have hI₂ := hI₁.date hnow rfl
              split
              · simp only [Script.wp_bind, wp_say, Script.wp_pure]
                exact hI₂.quiet rfl
              · next hcool =>
                  simp only [Script.wp_bind, wp_say, wp_sh]
                  intro stamp hstamp
                  refine ⟨trivial, fun ok _ => ?_⟩
                  have hI₃ := (hI₂.quiet rfl).date hstamp rfl
                  have hspaced : ∀ s ∈ clearTimes h, s + clearCooldown ≤ stamp := by
                    intro s hs
                    obtain ⟨hpos, hle⟩ := hI.cleared s hs
                    exact cooled hcool hpos hle (hstamp.2 now (by simp [readings]))
                  have hle : ∀ s ∈ clearTimes h, s ≤ stamp := by
                    intro s hs
                    exact Int.le_trans (Int.le_add_of_nonneg_right (by decide)) (hspaced s hs)
                  have hI₄ := hI₃.clear hstamp.1 hle pool ok
                  refine ⟨⟨⟨hI₃.cycle, ?_⟩, ⟨stamp, _, rfl⟩, hspaced⟩, ?_⟩
                  · simp only [not_or, Bool.not_eq_false] at hok
                    exact hI₃.seen hok.1 hok.2
                  · cases ok with
                    | true =>
                        simp only [reduceIte, Script.wp_bind, wp_sh, wp_poolState]
                        refine fun _ _ => ⟨trivial, fun after => ?_⟩
                        split
                        · exact wp_say.mpr (((hI₄.quiet rfl).quiet rfl).quiet rfl)
                        · exact wp_say.mpr (((hI₄.quiet rfl).quiet rfl).quiet rfl)
                    | false => exact wp_say.mpr (hI₄.quiet rfl)
      | _ => exact hI₁

end

/-- A repair cycle, started when it may be. -/
theorem wp_repair {setup : Setup} {lastClear : Int} (hbad : failThreshold ≤ badChecks h)
    (hrested : Rested h) (hcleared : Cleared lastClear h)
    (hclients : supervised h = setup.clients) :
    wp rely guar (repair setup lastClear) (fun o h' => justWedged h' = o.wedged ∧
      badChecks h' = 0 ∧ Cleared o.lastClear h' ∧ Rested h') h := by
  simp only [repair, Script.wp_bind, wp_sh, wp_say]
  refine fun _ _ => ⟨⟨hbad, hrested⟩, ?_⟩
  refine Script.wp_mono (Script.wp_foldlM (I := fun _ _ h' => Framed _ h')
    (fun c _ _ h' hf => framed_attachMissing hf c) _ Framed.refl) fun _ h₂ hf₂ => ?_
  simp only [Script.wp_bind, wp_sh]
  refine fun _ _ => ⟨trivial, ?_⟩
  refine Script.wp_mono (Script.wp_foldlM (I := Examining _ setup.clients)
    (fun c rest t h' hI => wp_examine hI) _ ⟨Framed.refl, fun _ _ c hc => Or.inl hc⟩)
    fun t h₃ hI₃ => ?_
  have hmarks : marks h₃ = .attached :: .repair :: marks h :=
    hI₃.framed.marks.trans (congrArg _ hf₂.marks)
  have hsupervised : supervised h₃ = setup.clients :=
    hI₃.framed.supervised.trans (hf₂.supervised.trans hclients)
  have hclears : clearTimes h₃ = clearTimes h := hI₃.framed.clearTimes.trans hf₂.clearTimes
  have hresuming : Resuming t lastClear h₃ := by
    refine ⟨⟨marks h, hmarks⟩, ?_, ?_, hI₃.framed.rested (hf₂.rested hrested)⟩
    · intro hattached hanswer c hc
      rw [hsupervised] at hc
      exact (hI₃.seen hattached hanswer c hc).resolve_left (by simp)
    · rw [Cleared, hclears]
      exact hcleared
  rw [Script.wp_bind]
  refine Script.wp_mono (Script.wp_foldlM (I := fun _ (o : Outcome) => Resuming t o.lastClear)
    (fun pool _ o h' hI => wp_resume hI pool) _ hresuming) fun o h₄ hI₄ => ?_
  simp only [Script.wp_bind, wp_sh, Script.wp_pure]
  refine fun _ _ => ⟨trivial, ?_, rfl, hI₄.cleared, hI₄.rested⟩
  cases o.wedged
  · rfl
  · rfl

/-! ## rounds -/

/-- What holds between two rounds. -/
structure Inv (v : Vars) (h : History Ans) : Prop where
  failures : badChecks h = v.failures
  cleared : Cleared v.lastClear h
  resting : 0 < v.lastWedged → ∀ t ∈ wedgedTimes h, t ≤ v.lastWedged
  rested : ¬ 0 < v.lastWedged → Rested h

variable {v : Vars}

/-- The invariant goes on over quiet commands. -/
theorem Inv.framed {h' : History Ans} (hI : Inv v h) (hf : Framed h h') : Inv v h' := by
  refine ⟨?_, ?_, ?_, fun hv => hf.rested (hI.rested hv)⟩
  · rw [badChecks, hf.marks]
    exact hI.failures
  · rw [Cleared, hf.clearTimes]
    exact hI.cleared
  · rw [hf.wedgedTimes]
    exact hI.resting

/-- A repair where the checks have failed often enough. -/
theorem wp_act {setup : Setup} (hbad : failThreshold ≤ badChecks h) (hrested : Rested h)
    (hcleared : Cleared v.lastClear h) (hclients : supervised h = setup.clients) :
    wp rely guar (act setup v) Inv h := by
  simp only [act, Script.wp_bind]
  refine Script.wp_mono (wp_repair hbad hrested hcleared hclients) ?_
  rintro o h₁ ⟨hwedged, hbad, hcleared, hrested⟩
  split
  · next ho =>
      simp only [Script.wp_bind, wp_sh, Script.wp_pure]
      refine fun now hnow => ⟨trivial, fun _ _ => ⟨trivial, hbad, hcleared, ?_, ?_⟩⟩
      · intro _ t ht
        have hmem : t ∈ now :: wedgedTimes h₁ := by
          simpa only [wedgedTimes, hwedged, ho, reduceIte] using ht
        rcases List.mem_cons.mp hmem with rfl | hmem
        · exact Int.le_refl t
        · have hlong : t + wedgedRest ≤ now := Int.le_trans (hrested t hmem) (latest_le hnow)
          exact Int.le_trans (Int.le_add_of_nonneg_right (by decide)) hlong
      · exact fun hnot => absurd hnow.1 hnot
  · next ho =>
      simp only [Script.wp_bind, wp_sh, Script.wp_pure]
      exact fun _ _ => ⟨trivial, hbad, hcleared, by simp, fun _ => hrested⟩

/-- The check at the start of a round. -/
theorem Inv.checked (hI : Inv v h) {setup : Setup} {h' : History Ans}
    (hf : Framed (⟨.discover, setup⟩ :: h) h') (bad : Bool) :
    Inv { v with failures := if bad then v.failures + 1 else 0 }
      (⟨.mark (.checked bad), ()⟩ :: h') := by
  have hdiscover : Inv v (⟨.discover, setup⟩ :: h) :=
    ⟨hI.failures, hI.cleared, hI.resting, hI.rested⟩
  have hI' := hdiscover.framed hf
  refine ⟨?_, hI'.cleared, hI'.resting, hI'.rested⟩
  cases bad with
  | true => exact congrArg (· + 1) hI'.failures
  | false => rfl

/-- Past the test of the script, a wedged cycle has had its rest. -/
theorem rest_over {now lastWedged t : Int} (hlong : ¬ now - lastWedged < wedgedRest)
    (hle : t ≤ lastWedged) : t + wedgedRest ≤ now := by
  omega

/-- One round of the daemon keeps the invariant. -/
theorem wp_round (hI : Inv v h) : wp rely guar (round v) Inv h := by
  simp only [round, Script.wp_bind, wp_sh]
  refine fun setup _ => ⟨trivial, ?_⟩
  refine Script.wp_mono (Script.wp_foldlM (I := fun _ _ h' => Framed _ h')
    (fun c _ bad h' hf => framed_checkClient hf bad c) _ Framed.refl) fun bad h₁ hf₁ => ?_
  rw [Script.wp_bind]
  refine Script.wp_mono (Script.wp_foldlM (I := fun _ _ h' => Framed _ h')
    (fun pool _ bad h' hf => framed_checkPool hf bad pool) _ hf₁) fun bad h₂ hf₂ => ?_
  simp only [Script.wp_bind, wp_sh]
  refine fun _ _ => ⟨trivial, ?_⟩
  have hclients : supervised (⟨.mark (.checked bad), ()⟩ :: h₂) = setup.clients := hf₂.supervised
  have hI₂ := hI.checked hf₂ bad
  cases bad with
  | false =>
      simp only [reduceIte, Script.wp_bind, wp_sh, Script.wp_pure]
      exact fun _ _ => ⟨trivial, hI₂.framed (Framed.refl.cons rfl)⟩
  | true =>
      simp only [reduceIte, Bool.true_eq_false]
      split
      · simp only [Script.wp_bind, wp_sh, Script.wp_pure]
        exact fun _ _ => ⟨trivial, hI₂.framed (Framed.refl.cons rfl)⟩
      · next hfail =>
          have hbad : failThreshold ≤ badChecks (⟨.mark (.checked true), ()⟩ :: h₂) := by
            rw [hI₂.failures]
            exact Nat.le_of_not_lt hfail
          split
          · next hwedged =>
              simp only [Script.wp_bind, wp_sh]
              refine fun now hnow => ⟨trivial, ?_⟩
              split
              · simp only [Script.wp_bind, wp_sh, Script.wp_pure]
                refine fun _ _ => ⟨trivial, ?_⟩
                refine Inv.framed ?_ (Framed.refl.cons rfl)
                exact ⟨hI₂.failures, hI₂.cleared, hI₂.resting, fun hnot => absurd hwedged hnot⟩
              · next hlong =>
                  refine wp_act hbad ?_ hI₂.cleared hclients
                  intro t ht
                  exact rest_over hlong (hI₂.resting hwedged t ht)
          · next hwedged => exact wp_act hbad (hI₂.rested hwedged) hI₂.cleared hclients

/-- So do any number of rounds. -/
theorem wp_rounds (hI : Inv v h) (n : Nat) : wp rely guar (rounds n v) Inv h := by
  induction n generalizing v h with
  | zero => exact hI
  | succ n ih =>
      rw [rounds, Script.wp_bind]
      exact Script.wp_mono (wp_round hI) fun v h hI => ih hI

/-- The daemon, from its start. -/
theorem wp_main (n : Nat) : wp rely guar (main n) (fun _ _ => True) [] := by
  simp only [main, Script.wp_bind, wp_sh]
  refine fun free _ => ⟨trivial, ?_⟩
  split
  · simp only [Script.wp_bind, wp_sh]
    refine fun setup _ => ⟨trivial, ?_⟩
    split
    · exact wp_say.mpr trivial
    · rw [Script.wp_bind, wp_say, Script.wp_bind]
      refine Script.wp_mono (wp_rounds ⟨rfl, ?_, ?_, ?_⟩ n) fun _ _ _ => trivial
      · simp [Cleared, clearTimes]
      · simp
      · simp [Rested, wedgedTimes]
  · trivial

/-- What the daemon does in so many rounds. -/
def trace (w : World Ans) (n : Nat) : History Ans := ((main n).run w []).2

/-- The daemon keeps to all of it, in a world whose clock is past 1970 and does
not run backwards. -/
theorem guarded (w : World Ans) (n : Nat) (hsteady : Steady (trace w n))
    (hpos : Positive (trace w n)) : Guarded (trace w n) := by
  have hrely : Always rely (trace w n) := always_rely hsteady hpos
  exact guarded_of_always (Script.run_of_wp w (wp_main n) hrely Always.nil).1

/-- A device that answers under a pool that stays suspended. -/
def stuck (clock : History Ans → Int) : World Ans
  | _, .flock => true
  | _, .discover => ⟨[⟨"10.0.0.1", "10809", "/dev/nbd0", "export", "180"⟩], ["tank"]⟩
  | _, .size _ => some 2048
  | _, .dd _ => true
  | _, .zpoolList _ => some .suspended
  | _, .nbdClient .. => ()
  | _, .zpoolClear _ => true
  | h, .date => clock h
  | _, .sleep _ => ()
  | _, .say .. => ()
  | _, .mark _ => ()

/-- A clock that goes on with every command. -/
def ticking (h : History Ans) : Int := 1700000000 + h.length

theorem guarded_stuck : Guarded (trace (stuck ticking) 4) ∧
    clearTimes (trace (stuck ticking) 4) = [1700000026] :=
  ⟨guarded (stuck ticking) 4 (by unfold Steady; decide +kernel)
      (by unfold Positive; decide +kernel),
    by decide +kernel⟩

/-- While the clock still shows 1970, one `zpool clear` follows the other: a
timestamp of 0 is taken for none. -/
theorem cleared_again :
    ¬ ∀ (w : World Ans) (n : Nat), Steady (trace w n) → Guarded (trace w n) := by
  intro h
  have hsteady : Steady (trace (stuck fun _ => 0) 6) := by
    unfold Steady
    decide +kernel
  have hclears : clearTimes (trace (stuck fun _ => 0) 6) = [0, 0] := by decide +kernel
  have hspaced := (h (stuck fun _ => 0) 6 hsteady).spaced
  rw [hclears] at hspaced
  exact absurd hspaced (by decide)

end Zebrafish.System.NbdHeal
