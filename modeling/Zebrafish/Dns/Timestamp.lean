import Mathlib.Tactic.IntervalCases
import Zebrafish.Lib.Calendar
import Zebrafish.Lib.Padded
import Zebrafish.Lib.Number
import Zebrafish.Lib.Rust

/-!
# Zebrafish.Dns.Timestamp

The timestamps of the query log (`query_log.rs`): `rfc3339`, and
`days_to_date`, which turns a number of days into a date.

The code counts in eras of 400 years that begin in March.  From a day of such an
era it gets the year back (`yearOfEra_eq`), whatever the day, and with that the
rest of the date.
-/

namespace Zebrafish.Dns

open Rust Calendar

/-! ## the code -/

/-- `u64 as i64`. -/
def asI64 (n : Nat) : Int := Int.bmod n (2 ^ 64)

/-- `i64 as u64`. -/
def asU64 (i : Int) : Nat := (i % (2 ^ 64 : Nat)).toNat

/-- `u64 as i32`. -/
def asI32 (n : Nat) : Int := Int.bmod n (2 ^ 32)

/-- `u64 as u32`. -/
def asU32 (n : Nat) : Nat := n % 2 ^ 32

/-- `u64 - u64`, which must not go below zero. -/
def subU64 (a b : Nat) : Option Nat := if b ≤ a then some (a - b) else none

/-- A number that fits into a `u64`. -/
def inU64 (n : Nat) : Option Nat := if n < 2 ^ 64 then some n else none

/-- `days_to_date`; nothing where an operation leaves its type. -/
def daysToDate (days : Nat) : Option (Int × Nat × Nat) := do
  let z ← inI64 (asI64 days + 719468)
  let era := (if 0 ≤ z then z else z - 146096).tdiv 146097
  let doe := asU64 (z - era * 146097)
  let yoe ← subU64 ((← subU64 doe (doe / 1460)) + doe / 36524) (doe / 146096)
  let yoe := yoe / 365
  let y ← inU64 (yoe + asU64 era * 400)
  let doy ← subU64 doe (← subU64 (365 * yoe + yoe / 4) (yoe / 100))
  let mp := (5 * doy + 2) / 153
  let d := (← subU64 doy ((153 * mp + 2) / 5)) + 1
  let m ← if mp < 10 then some (mp + 3) else subU64 mp 9
  let y := if m ≤ 2 then y + 1 else y
  some (asI32 y, asU32 m, asU32 d)

/-- `Duration::subsec_millis`. -/
def subsecMillis (d : Nat) : Nat := d % nanosPerSec / 1000000

/-- `rfc3339`, given what `SystemTime::now().duration_since(UNIX_EPOCH)` comes
to: nothing if the clock is before the epoch. -/
def rfc3339 (sinceEpoch : Option Nat) : Option String :=
  let d := sinceEpoch.getD 0
  let totalSecs := Duration.asSecs d
  let millis := subsecMillis d
  (daysToDate (totalSecs / 86400)).map fun (y, m, d) =>
    let t := totalSecs % 86400
    let h := t / 3600
    let mi := t % 3600 / 60
    let s := t % 60
    String.ofList (padInt 4 y ++ '-' :: (pad 2 m ++ '-' :: (pad 2 d ++ 'T' :: (pad 2 h ++
      ':' :: (pad 2 mi ++ ':' :: (pad 2 s ++ '.' :: (pad 3 millis ++ ['Z'])))))))

/-! ## operations that stay within their types -/

/-- A small number is the same as a signed one. -/
theorem asI64_of_lt {n : Nat} (h : n < 2 ^ 63) : asI64 n = n :=
  Int.bmod_eq_of_le (by omega) (by omega)

/-- A small number is the same as an unsigned one. -/
theorem asU64_natCast {n : Nat} (h : n < 2 ^ 64) : asU64 n = n := by
  rw [asU64]
  omega

/-- So it is with 32 bits, signed. -/
theorem asI32_of_lt {n : Nat} (h : n < 2 ^ 31) : asI32 n = n :=
  Int.bmod_eq_of_le (by omega) (by omega)

/-- And unsigned. -/
theorem asU32_of_lt {n : Nat} (h : n < 2 ^ 32) : asU32 n = n := Nat.mod_eq_of_lt h

/-- A difference that is not negative does not overflow. -/
theorem subU64_of_le {a b : Nat} (h : b ≤ a) : subU64 a b = some (a - b) := if_pos h

/-! ## a day of an era -/

/-- From a day of an era the year of the era is got back, and no subtraction on
the way goes below zero. -/
theorem yearOfEra_eq {yoe doe : Nat} (hyoe : yoe < 400) (hlow : 365 * yoe + leaps yoe ≤ doe)
    (hhigh : doe < 365 * (yoe + 1) + leaps (yoe + 1)) :
    doe / 1460 ≤ doe ∧ doe / 146096 ≤ doe - doe / 1460 + doe / 36524 ∧
      (doe - doe / 1460 + doe / 36524 - doe / 146096) / 365 = yoe := by
  -- centuries, leap cycles and years of the era, and the day of the year
  obtain ⟨c, q, k, rfl, hc, hq, hk⟩ :
      ∃ c q k, yoe = 100 * c + 4 * q + k ∧ c < 4 ∧ q < 25 ∧ k < 4 :=
    ⟨yoe / 100, yoe % 100 / 4, yoe % 4, by omega⟩
  obtain ⟨t, rfl⟩ := Nat.exists_eq_add_of_le hlow
  have hleaps : leaps (100 * c + 4 * q + k) = 24 * c + q := by
    unfold leaps
    omega
  have hday : t < 365 ∨ t = 365 ∧ k = 3 ∧ (q < 24 ∨ c = 3) := by
    have hnext := leaps_succ (100 * c + 4 * q + k)
    simp only [isLeap, Bool.and_eq_true, Bool.or_eq_true, decide_eq_true_eq, ne_eq] at hnext
    split_ifs at hnext <;> omega
  rw [hleaps]
  clear hleaps hlow hhigh hyoe
  have hdoe : 365 * (100 * c + 4 * q + k) + (24 * c + q) + t =
      36524 * c + 1461 * q + 365 * k + t := by
    omega
  rw [hdoe]
  -- the last day of the era is counted in both of the corrections behind it
  have hlast : 1461 * q + 365 * k + t < 36524 ∨ 1461 * q + 365 * k + t = 36524 ∧ c = 3 := by
    omega
  have hcorr : (36524 * c + 1461 * q + 365 * k + t) / 36524 =
      c + (36524 * c + 1461 * q + 365 * k + t) / 146096 := by
    obtain hlast | ⟨hlast, rfl⟩ := hlast <;> omega
  have hshort : (36524 * c + 1461 * q + 365 * k + t) / 1460 =
      25 * c + q + if 1460 ≤ 24 * c + q + 365 * k + t then 1 else 0 := by
    split_ifs <;> omega
  rw [hcorr, hshort]
  split_ifs <;> omega

/-- From a day of a year that begins in March the month is got back. -/
theorem monthOfYear_eq {mp k : Nat} (h : (153 * mp + 2) / 5 + k < (153 * (mp + 1) + 2) / 5) :
    (5 * ((153 * mp + 2) / 5 + k) + 2) / 153 = mp := by
  omega

/-- The leap days of an era before one of its years, as the code counts them. -/
theorem leaps_of_lt {yoe : Nat} (h : yoe < 400) : leaps yoe = yoe / 4 - yoe / 100 := by
  rw [leaps, Nat.div_eq_of_lt h, Nat.add_zero]

/-- 400 years have 97 leap years. -/
theorem leaps_era (era yoe : Nat) : leaps (400 * era + yoe) = 97 * era + leaps yoe := by
  have h := leaps_eq (400 * era + yoe)
  have h' := leaps_eq yoe
  omega

/-- The code takes a number of days apart into an era and a day of it. -/
theorem era_eq {days era doe : Nat} (hera : era < 65536) (hdoe : doe < 146097)
    (hdays : days + 719468 = 146097 * era + doe) :
    ∃ z, inI64 (asI64 days + 719468) = some z ∧ 0 ≤ z ∧ z.tdiv 146097 = era ∧
      asU64 (z - era * 146097) = doe := by
  have hlt : 146097 * era + doe < 2 ^ 63 := by omega
  have hsum : asI64 days + 719468 = ((146097 * era + doe : Nat) : Int) := by
    rw [asI64_of_lt (by omega)]
    omega
  refine ⟨(146097 * era + doe : Nat), ?_, Int.natCast_nonneg _, ?_, ?_⟩
  · rw [hsum, inI64_natCast hlt]
  · rw [Int.tdiv_eq_ediv_of_nonneg (Int.natCast_nonneg _)]
    omega
  · have hrest : ((146097 * era + doe : Nat) : Int) - era * 146097 = doe := by omega
    rw [hrest, asU64_natCast (by omega)]

/-- `days_to_date` on the day `k` of the month `mp` of the year `yoe` of an era;
every operation stays within its type. -/
theorem daysToDate_eq {days era yoe mp k : Nat} (hera : era < 65536) (hyoe : yoe < 400)
    (hmp : mp < 12) (hmonth : (153 * mp + 2) / 5 + k < (153 * (mp + 1) + 2) / 5)
    (hyear : (153 * mp + 2) / 5 + k + leaps yoe < 365 + leaps (yoe + 1))
    (hdays : days + 719468 = 146097 * era + (365 * yoe + leaps yoe + ((153 * mp + 2) / 5 + k))) :
    daysToDate days =
      some (((400 * era + yoe + if 10 ≤ mp then 1 else 0 : Nat) : Int),
        if mp < 10 then mp + 3 else mp - 9, k + 1) := by
  have hleaps := leaps_of_lt hyoe
  obtain ⟨hshort, hlong, hyoe'⟩ := yearOfEra_eq hyoe (Nat.le_add_right _ ((153 * mp + 2) / 5 + k))
    (by omega)
  have hlt : 365 * yoe + leaps yoe + ((153 * mp + 2) / 5 + k) < 146097 := by
    have hnext : leaps (yoe + 1) ≤ 97 := by unfold leaps; omega
    omega
  obtain ⟨z, hz, hpos, hquot, hrem⟩ := era_eq hera hlt hdays
  have hyears : 365 * yoe + yoe / 4 - yoe / 100 = 365 * yoe + leaps yoe := by omega
  have hhead : yoe / 100 ≤ 365 * yoe + yoe / 4 := by omega
  have hera' : asU64 era = era := asU64_natCast (by omega)
  have hy : yoe + era * 400 < 2 ^ 64 := by omega
  simp only [daysToDate, hz, Option.bind_eq_bind, Option.bind_some, if_pos hpos, hquot, hrem,
    subU64_of_le hshort, subU64_of_le hlong, hyoe', hera', inU64, if_pos hy, subU64_of_le hhead,
    hyears, subU64_of_le (Nat.le_add_right (365 * yoe + leaps yoe) ((153 * mp + 2) / 5 + k)),
    Nat.add_sub_cancel_left, monthOfYear_eq hmonth,
    subU64_of_le (Nat.le_add_right ((153 * mp + 2) / 5) k)]
  by_cases hmarch : mp < 10
  · rw [if_pos hmarch, if_pos hmarch, if_neg (by omega), if_neg (by omega), asI32_of_lt (by omega),
      asU32_of_lt (by omega), asU32_of_lt (by omega), Nat.mul_comm era, Nat.add_comm yoe]
    rfl
  · rw [if_neg hmarch, if_neg hmarch, if_pos (by omega), subU64_of_le (by omega), Option.bind_some,
      if_pos (by omega), asI32_of_lt (by omega), asU32_of_lt (by omega), asU32_of_lt (by omega),
      Nat.mul_comm era, Nat.add_comm yoe]

/-! ## dates -/

/-- The month of a date in a year that begins in March. -/
def marchMonth (d : Date) : Nat := if d.month ≤ 2 then d.month + 9 else d.month - 3

/-- The year of a date, if years begin in March. -/
def marchYear (d : Date) : Nat := if d.month ≤ 2 then d.year - 1 else d.year

/-- The formula of the source for the months from March on. -/
theorem marchMonth_spec (d : Date) :
    marchMonth d < 12 ∧
      (153 * marchMonth d + 2) / 5 + (d.day - 1) < (153 * (marchMonth d + 1) + 2) / 5 := by
  obtain ⟨year, month, day, ⟨hlow, hhigh⟩, hday⟩ := d
  simp only [marchMonth]
  interval_cases month <;> simp [monthLength] at hday ⊢ <;> grind

/-- Leap years come again after 400 years. -/
theorem isLeap_era (era y : Nat) : isLeap (400 * era + y) = isLeap y := by
  rw [isLeap, isLeap, show (400 * era + y) % 4 = y % 4 by omega,
    show (400 * era + y) % 100 = y % 100 by omega, show (400 * era + y) % 400 = y % 400 by omega]

/-- A year that begins in March is a day longer if the next year is a leap year. -/
theorem marchYear_spec {d : Date} (h : epochYear ≤ d.year) {era yoe : Nat}
    (hy : marchYear d = 400 * era + yoe) :
    (153 * marchMonth d + 2) / 5 + (d.day - 1) + leaps yoe < 365 + leaps (yoe + 1) := by
  have hmonth := (marchMonth_spec d).2
  have hnext := leaps_succ yoe
  by_cases hfeb : marchMonth d = 11
  · have hm : d.month = 2 := by
      have hm := d.month_mem
      unfold marchMonth at hfeb
      split at hfeb <;> omega
    have hepoch : epochYear = 1970 := rfl
    have hyear : d.year = 400 * era + (yoe + 1) := by
      rw [marchYear, if_pos (by omega)] at hy
      omega
    have hday := d.day_mem
    have hlen : monthLength d.year 2 = if isLeap d.year then 29 else 28 := rfl
    rw [hm, hlen, hyear, isLeap_era] at hday
    rw [hfeb]
    split_ifs at hday hnext <;> omega
  · have hlt := (marchMonth_spec d).1
    omega

/-- `days_to_date` gets every date back from its number of days. -/
theorem daysToDate_dayNumber {d : Date} (h : epochYear ≤ d.year) (hmax : d.year ≤ 9999) :
    daysToDate d.dayNumber = some ((d.year : Int), d.month, d.day) := by
  have hepoch : epochYear = 1970 := rfl
  have hday := d.day_mem
  have hmonth := d.month_mem
  have hy : marchYear d = 400 * (marchYear d / 400) + marchYear d % 400 := by omega
  have hle : marchYear d ≤ d.year := by
    unfold marchYear
    split <;> omega
  have hcount := Date.dayNumber_add h (y := marchYear d) (m := marchMonth d) rfl rfl
  have hleaps := leaps_era (marchYear d / 400) (marchYear d % 400)
  rw [← hy] at hleaps
  have hera : marchYear d / 400 < 65536 := by omega
  rw [daysToDate_eq hera (Nat.mod_lt _ (by decide)) (marchMonth_spec d).1
    (marchMonth_spec d).2 (marchYear_spec h hy) (by omega), ← hy]
  unfold marchYear marchMonth
  by_cases hfeb : d.month ≤ 2
  · simp [hfeb]
    omega
  · have hdec : d.month - 3 < 10 := by omega
    have hdec' : ¬ 10 ≤ d.month - 3 := by omega
    simp [hfeb, hdec, hdec']
    omega

/-- The last day of the year 9999. -/
def lastDay : Date := ⟨9999, 12, 31, by decide, by decide⟩

/-- Up to the last day every number of days is that of a date, which is what
`days_to_date` returns. -/
theorem exists_daysToDate {days : Nat} (h : days ≤ lastDay.dayNumber) :
    ∃ d : Date, epochYear ≤ d.year ∧ d.year ≤ 9999 ∧ d.dayNumber = days ∧
      daysToDate days = some ((d.year : Int), d.month, d.day) := by
  obtain ⟨d, hd, rfl⟩ := exists_dayNumber days
  have hmax : d.year ≤ 9999 := by
    by_contra hlate
    have hbefore : lastDay.Before d := Or.inl (Nat.lt_of_not_le hlate)
    have hlt := hbefore.dayNumber_lt (by decide)
    omega
  exact ⟨d, hd, hmax, rfl, daysToDate_dayNumber hd hmax⟩

/-! ## timestamps -/

/-- A time as the log writes it. -/
def stamp (t : DateTime) : List Char :=
  pad 4 t.date.year ++ '-' :: (pad 2 t.date.month ++ '-' :: (pad 2 t.date.day ++ 'T' ::
    (pad 2 t.hour ++ ':' :: (pad 2 t.minute ++ ':' :: (pad 2 t.second ++ '.' ::
      (pad 3 t.milli ++ ['Z']))))))

/-- A time that is not after the year 9999, in nanoseconds since the epoch. -/
def Within (n : Nat) : Prop := Duration.asSecs n < (lastDay.dayNumber + 1) * 86400

/-- `rfc3339` writes the date and the time of that instant. -/
theorem rfc3339_eq {n : Nat} (h : Within n) :
    ∃ t : DateTime, epochYear ≤ t.date.year ∧ t.date.year ≤ 9999 ∧
      t.seconds = Duration.asSecs n ∧ t.millis = n / 1000000 ∧
      rfc3339 (some n) = some (String.ofList (stamp t)) := by
  unfold Within at h
  obtain ⟨d, hd, hmax, hnum, hdate⟩ :=
    exists_daysToDate (show Duration.asSecs n / 86400 ≤ lastDay.dayNumber by omega)
  refine ⟨⟨d, Duration.asSecs n % 86400 / 3600, Duration.asSecs n % 86400 % 3600 / 60,
    Duration.asSecs n % 86400 % 60, subsecMillis n, by omega, by omega, by omega, ?_⟩,
    hd, hmax, ?_, ?_, ?_⟩
  · simp only [subsecMillis, nanosPerSec]
    omega
  · simp only [DateTime.seconds, hnum]
    omega
  · simp only [DateTime.millis, DateTime.seconds, hnum, subsecMillis, Duration.asSecs, nanosPerSec]
    omega
  · simp [rfc3339, hdate, stamp]

/-- Timestamps are in the order of their times. -/
theorem stamp_lt_iff {t t' : DateTime} (h : t.date.year ≤ 9999) (h' : t'.date.year ≤ 9999) :
    stamp t < stamp t' ↔ t.Before t' := by
  have hday (d : Date) : d.month < 100 ∧ d.day < 100 := by
    have hmonth := d.month_mem
    have hday := d.day_mem
    have hlen : monthLength d.year d.month ≤ 31 := by
      unfold monthLength
      split <;> grind
    omega
  have hours := t.hour_lt
  have hours' := t'.hour_lt
  have minutes := t.minute_lt
  have minutes' := t'.minute_lt
  have seconds := t.second_lt
  have seconds' := t'.second_lt
  rw [stamp, stamp, pad_append_lt_iff (by omega) (by omega), List.cons_lt_cons_self,
    pad_append_lt_iff (hday _).1 (hday _).1, List.cons_lt_cons_self,
    pad_append_lt_iff (hday _).2 (hday _).2, List.cons_lt_cons_self,
    pad_append_lt_iff (by omega) (by omega), List.cons_lt_cons_self,
    pad_append_lt_iff (by omega) (by omega), List.cons_lt_cons_self,
    pad_append_lt_iff (by omega) (by omega), List.cons_lt_cons_self,
    pad_append_lt_iff t.milli_lt t'.milli_lt, DateTime.Before, Date.Before, Date.ext_iff]
  have hend : ¬ ['Z'] < ['Z'] := by simp
  tauto

/-- The dates of the log are those of the Gregorian calendar, the subtractions
on the way stay above zero, and timestamps are in the order of time. -/
theorem rfc3339_gregorian :
    (∀ d : Date, epochYear ≤ d.year → d.year ≤ 9999 →
      daysToDate d.dayNumber = some ((d.year : Int), d.month, d.day)) ∧
    (∀ days ≤ lastDay.dayNumber, ∃ d : Date, epochYear ≤ d.year ∧ d.dayNumber = days ∧
      daysToDate days = some ((d.year : Int), d.month, d.day)) ∧
    (∀ n, Within n → ∃ t : DateTime, epochYear ≤ t.date.year ∧ t.seconds = Duration.asSecs n ∧
      t.millis = n / 1000000 ∧ rfc3339 (some n) = some (String.ofList (stamp t))) ∧
    ∀ n n' s s', Within n → Within n' → rfc3339 (some n) = some s → rfc3339 (some n') = some s' →
      (s < s' ↔ n / 1000000 < n' / 1000000) := by
  refine ⟨fun d hd hmax => daysToDate_dayNumber hd hmax, ?_, ?_, ?_⟩
  · intro days h
    obtain ⟨d, hd, _, hnum, hdate⟩ := exists_daysToDate h
    exact ⟨d, hd, hnum, hdate⟩
  · intro n h
    obtain ⟨t, ht, _, hsecs, hmillis, htext⟩ := rfc3339_eq h
    exact ⟨t, ht, hsecs, hmillis, htext⟩
  · intro n n' s s' h h' hs hs'
    obtain ⟨t, ht, hmax, _, hmillis, htext⟩ := rfc3339_eq h
    obtain ⟨t', ht', hmax', _, hmillis', htext'⟩ := rfc3339_eq h'
    obtain rfl := Option.some.inj (hs.symm.trans htext)
    obtain rfl := Option.some.inj (hs'.symm.trans htext')
    rw [String.lt_iff, String.toList_ofList, String.toList_ofList, stamp_lt_iff hmax hmax',
      ← DateTime.millis_lt_iff ht ht', hmillis, hmillis']

theorem rfc3339_gregorian_leap_day :
    daysToDate (Date.mk 2000 2 29 (by decide) (by decide)).dayNumber = some (2000, 2, 29) ∧
      ("2000-02-29T23:59:59.999Z" < "2000-03-01T00:00:00.000Z" ↔
        951868799999000000 / 1000000 < 951868800000000000 / 1000000) := by
  have hlast : lastDay.dayNumber = 2932896 := by
    have hcount : lastDay.dayNumber + 719468 =
        365 * 9999 + leaps 9999 + (153 * 9 + 2) / 5 + (31 - 1) :=
      Date.dayNumber_add (by decide) rfl rfl
    rw [show leaps 9999 = 2424 by decide] at hcount
    exact Nat.add_right_cancel hcount
  have hin (n : Nat) (h : n ≤ 951868800000000000) : Within n := by
    rw [Within, hlast, Duration.asSecs, nanosPerSec]
    omega
  exact ⟨rfc3339_gregorian.1 (Date.mk 2000 2 29 (by decide) (by decide)) (by decide) (by decide),
    rfc3339_gregorian.2.2.2 _ _ _ _ (hin _ (by decide)) (hin _ (by decide)) (by decide +kernel)
      (by decide +kernel)⟩

end Zebrafish.Dns
