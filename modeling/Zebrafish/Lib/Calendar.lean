import Mathlib.Algebra.BigOperators.Intervals
import Mathlib.Algebra.Order.BigOperators.Group.Finset
import Mathlib.Order.Interval.Finset.Nat
import Mathlib.Tactic.IntervalCases

/-!
# Calendar

The proleptic Gregorian calendar: dates, and the number of days from
1970-01-01 to a date, counted year by year and month by month.

Every number of days is that of a date (`exists_dayNumber`), and later dates have
larger numbers (`dayNumber_lt_iff`), so a date and its number determine each
other.  `Date.dayNumber_add` is the number without a sum, for years that begin in March.
-/

namespace Calendar

/-- The Gregorian leap rule. -/
def isLeap (y : Nat) : Bool := y % 4 = 0 && (y % 100 ≠ 0 || y % 400 = 0)

def monthLength (y : Nat) : Nat → Nat
  | 2 => if isLeap y then 29 else 28
  | 4 | 6 | 9 | 11 => 30
  | _ => 31

/-- The months of a year together. -/
def yearLength (y : Nat) : Nat := ∑ m ∈ Finset.Ico 1 13, monthLength y m

/-- A day of the calendar. -/
@[ext] structure Date where
  year : Nat
  month : Nat
  day : Nat
  month_mem : 1 ≤ month ∧ month ≤ 12
  day_mem : 1 ≤ day ∧ day ≤ monthLength year month
deriving DecidableEq

/-- The first year that days are counted from. -/
def epochYear : Nat := 1970

/-- The days from the first of January of the epoch year to a date: those of the
years before it, of the months before it, and of its month. -/
def Date.dayNumber (d : Date) : Nat :=
  ∑ y ∈ Finset.Ico epochYear d.year, yearLength y +
    ∑ m ∈ Finset.Ico 1 d.month, monthLength d.year m + (d.day - 1)

example : (Date.mk 2000 3 1 (by decide) (by decide)).dayNumber = 11017 := by decide +kernel

/-! ## lengths -/

theorem monthLength_pos (y m : Nat) : 0 < monthLength y m := by
  unfold monthLength
  split <;> grind

/-- The lengths of the months add up to that of the year. -/
theorem yearLength_eq (y : Nat) : yearLength y = if isLeap y then 366 else 365 := by
  simp only [yearLength, Finset.sum_Ico_eq_sum_range, Finset.sum_range_succ, monthLength]
  split <;> simp

/-- The months up to the end of one that comes before another. -/
theorem sum_monthLength_lt {y m m' : Nat} (hm : 1 ≤ m) (h : m < m') {k : Nat}
    (hk : k < monthLength y m) :
    ∑ i ∈ Finset.Ico 1 m, monthLength y i + k < ∑ i ∈ Finset.Ico 1 m', monthLength y i := by
  have hnext := Finset.sum_Ico_succ_top hm (monthLength y)
  have hle := Finset.sum_le_sum_of_subset (f := monthLength y)
    (Finset.Ico_subset_Ico_right (a := 1) (show m + 1 ≤ m' from h))
  omega

/-- The days of a year are before those of a later one. -/
theorem sum_yearLength_lt {y y' : Nat} (hy : epochYear ≤ y) (h : y < y') {k : Nat}
    (hk : k < yearLength y) :
    ∑ i ∈ Finset.Ico epochYear y, yearLength i + k <
      ∑ i ∈ Finset.Ico epochYear y', yearLength i := by
  have hnext := Finset.sum_Ico_succ_top hy yearLength
  have hle := Finset.sum_le_sum_of_subset (f := yearLength)
    (Finset.Ico_subset_Ico_right (a := epochYear) (show y + 1 ≤ y' from h))
  omega

/-- The day of the year, counted from zero. -/
def Date.dayOfYear (d : Date) : Nat :=
  ∑ m ∈ Finset.Ico 1 d.month, monthLength d.year m + (d.day - 1)

/-- The number of a day is that of the first of January and the day of the year. -/
theorem Date.dayNumber_eq_add (d : Date) :
    d.dayNumber = ∑ y ∈ Finset.Ico epochYear d.year, yearLength y + d.dayOfYear :=
  Nat.add_assoc ..

/-- A day of the year is within its year. -/
theorem Date.dayOfYear_lt (d : Date) : d.dayOfYear < yearLength d.year := by
  have hmonth := d.month_mem
  have hday := d.day_mem
  exact sum_monthLength_lt hmonth.1 (show d.month < 13 by omega) (by omega)

/-! ## one day after another -/

/-- The day after a date. -/
def Date.next (d : Date) : Date :=
  if hday : d.day < monthLength d.year d.month then
    { d with day := d.day + 1, day_mem := ⟨by omega, hday⟩ }
  else if hmonth : d.month < 12 then
    { year := d.year, month := d.month + 1, day := 1
      month_mem := ⟨by omega, hmonth⟩
      day_mem := ⟨Nat.le_refl 1, monthLength_pos ..⟩ }
  else
    { year := d.year + 1, month := 1, day := 1
      month_mem := by decide
      day_mem := ⟨Nat.le_refl 1, monthLength_pos ..⟩ }

/-- The next day is in no earlier year. -/
theorem Date.le_year_next (d : Date) : d.year ≤ d.next.year := by
  unfold Date.next
  split_ifs <;> simp

/-- The next day has the next number. -/
theorem Date.dayNumber_next {d : Date} (h : epochYear ≤ d.year) :
    d.next.dayNumber = d.dayNumber + 1 := by
  have hmonth := d.month_mem
  have hday := d.day_mem
  unfold Date.next
  split_ifs with hlast hdec
  · simp only [dayNumber]
    omega
  · have hnext := Finset.sum_Ico_succ_top hmonth.1 (monthLength d.year)
    simp only [dayNumber]
    omega
  · have hnext := Finset.sum_Ico_succ_top h yearLength
    have hyear := Finset.sum_Ico_succ_top (show 1 ≤ 12 by decide) (monthLength d.year)
    have hm : d.month = 12 := by omega
    have hlen : yearLength d.year =
        ∑ m ∈ Finset.Ico 1 12, monthLength d.year m + monthLength d.year 12 := hyear
    rw [hm] at hlast hday
    simp only [dayNumber, hm, hnext, Finset.Ico_self, Finset.sum_empty]
    omega

/-- Every day from the epoch on has a date. -/
theorem exists_dayNumber (n : Nat) : ∃ d : Date, epochYear ≤ d.year ∧ d.dayNumber = n := by
  induction n with
  | zero => exact ⟨⟨1970, 1, 1, by decide, by decide⟩, by decide, by decide⟩
  | succ n ih =>
      obtain ⟨d, hd, rfl⟩ := ih
      exact ⟨d.next, hd.trans d.le_year_next, Date.dayNumber_next hd⟩

/-! ## the order of dates -/

/-- Dates are compared by year, then month, then day. -/
def Date.Before (d d' : Date) : Prop :=
  d.year < d'.year ∨
    d.year = d'.year ∧ (d.month < d'.month ∨ d.month = d'.month ∧ d.day < d'.day)

/-- An earlier day has a lower number. -/
theorem Date.Before.dayNumber_lt {d d' : Date} (hd : epochYear ≤ d.year) (h : d.Before d') :
    d.dayNumber < d'.dayNumber := by
  have hday := d.day_mem
  rw [dayNumber_eq_add, dayNumber_eq_add]
  obtain h | ⟨hy, h | ⟨hm, h⟩⟩ := h
  · exact Nat.lt_add_right _ (sum_yearLength_lt hd h d.dayOfYear_lt)
  · have hlt := sum_monthLength_lt (k := d.day - 1) d.month_mem.1 h
      (show d.day - 1 < monthLength d.year d.month by omega)
    simp only [dayOfYear, ← hy]
    omega
  · simp only [dayOfYear, ← hy, ← hm]
    omega

/-- Of two days, one is earlier, or they are the same. -/
theorem Date.before_or_eq_or_before (d d' : Date) : d.Before d' ∨ d = d' ∨ d'.Before d := by
  rw [Date.ext_iff]
  unfold Before
  omega

/-- The order of the numbers is that of the days. -/
theorem dayNumber_lt_iff {d d' : Date} (hd : epochYear ≤ d.year) (hd' : epochYear ≤ d'.year) :
    d.dayNumber < d'.dayNumber ↔ d.Before d' := by
  constructor
  · intro hlt
    obtain h | rfl | h := d.before_or_eq_or_before d'
    · exact h
    · exact absurd hlt (Nat.lt_irrefl _)
    · exact absurd hlt (Nat.lt_asymm (h.dayNumber_lt hd'))
  · exact fun h => h.dayNumber_lt hd

/-! ## years that begin in March -/

/-- The leap years up to a year. -/
def leaps (y : Nat) : Nat := y / 4 - y / 100 + y / 400

/-- The leap years counted, without divisions by 100 that are taken twice. -/
theorem leaps_eq (y : Nat) : leaps y + y / 100 = y / 4 + y / 400 := by
  have hle : y / 100 ≤ y / 4 := Nat.div_le_div_left (by decide) (by decide)
  rw [leaps]
  omega

/-- A quotient goes up where the remainder gets to zero. -/
theorem div_succ (y k : Nat) : (y + 1) / k = y / k + if (y + 1) % k = 0 then 1 else 0 := by
  simp only [Nat.succ_div, Nat.dvd_iff_mod_eq_zero]

/-- One more year, which may be a leap year. -/
theorem leaps_succ (y : Nat) : leaps (y + 1) = leaps y + if isLeap (y + 1) then 1 else 0 := by
  have hnow := leaps_eq y
  have hnext := leaps_eq (y + 1)
  -- a multiple of 400 is one of 100, and that one of 4
  have hmul : ((y + 1) % 400 = 0 → (y + 1) % 100 = 0) ∧ ((y + 1) % 100 = 0 → (y + 1) % 4 = 0) := by
    omega
  rw [div_succ y 4, div_succ y 100, div_succ y 400] at hnext
  simp only [isLeap, Bool.and_eq_true, Bool.or_eq_true, decide_eq_true_eq, ne_eq]
  split_ifs at hnext ⊢ <;> omega

/-- The days of the years from the epoch on. -/
theorem sum_yearLength (n : Nat) :
    ∑ y ∈ Finset.Ico epochYear (epochYear + n), yearLength y + 719162 =
      365 * (n + 1969) + leaps (n + 1969) := by
  induction n with
  | zero => simp [leaps]
  | succ n ih =>
      have hepoch : epochYear = 1970 := rfl
      have hleaps := leaps_succ (n + 1969)
      rw [show n + 1969 + 1 = epochYear + n by omega] at hleaps
      rw [show n + 1 + 1969 = epochYear + n by omega, ← Nat.add_assoc,
        Finset.sum_Ico_succ_top (by omega), yearLength_eq, hleaps]
      split_ifs at hleaps ⊢ <;> omega

/-- The days of the months of a year before one of them. -/
theorem sum_monthLength {y m : Nat} (h : 1 ≤ m ∧ m ≤ 12) :
    ∑ i ∈ Finset.Ico 1 m, monthLength y i =
      if m ≤ 2 then 31 * (m - 1)
      else (153 * (m - 3) + 2) / 5 + if isLeap y then 60 else 59 := by
  obtain ⟨hlow, hhigh⟩ := h
  interval_cases m <;>
    simp [Finset.sum_Ico_eq_sum_range, Finset.sum_range_succ, monthLength] <;> split <;> rfl

/-- The number of a date, counted in years that begin in March: the first month
of such a year is March, and its last day the leap day. -/
theorem Date.dayNumber_add {d : Date} (h : epochYear ≤ d.year) {y m : Nat}
    (hy : y = if d.month ≤ 2 then d.year - 1 else d.year)
    (hm : m = if d.month ≤ 2 then d.month + 9 else d.month - 3) :
    d.dayNumber + 719468 = 365 * y + leaps y + (153 * m + 2) / 5 + (d.day - 1) := by
  obtain ⟨n, hn⟩ := Nat.exists_eq_add_of_le h
  have hepoch : epochYear = 1970 := rfl
  have hmonth := d.month_mem
  have hyears := sum_yearLength n
  have hmonths := sum_monthLength (y := d.year) hmonth
  rw [← hn] at hyears
  by_cases hfeb : d.month ≤ 2
  · rw [if_pos hfeb] at hy hm hmonths
    rw [show n + 1969 = y by omega] at hyears
    rw [dayNumber, hmonths]
    omega
  · rw [if_neg hfeb] at hy hm hmonths
    have hleaps := leaps_succ (n + 1969)
    rw [show n + 1969 + 1 = y by omega] at hleaps
    rw [dayNumber, hmonths]
    rw [← hy] at *
    split_ifs at hleaps ⊢ <;> omega

/-! ## the time of the day -/

/-- A time in UTC, down to milliseconds. -/
@[ext] structure DateTime where
  date : Date
  hour : Nat
  minute : Nat
  second : Nat
  milli : Nat
  hour_lt : hour < 24
  minute_lt : minute < 60
  second_lt : second < 60
  milli_lt : milli < 1000

/-- The seconds since the epoch. -/
def DateTime.seconds (t : DateTime) : Nat :=
  ((t.date.dayNumber * 24 + t.hour) * 60 + t.minute) * 60 + t.second

/-- The milliseconds since the epoch. -/
def DateTime.millis (t : DateTime) : Nat := t.seconds * 1000 + t.milli

/-- Times are compared by date, then hour, minute, second and millisecond. -/
def DateTime.Before (t t' : DateTime) : Prop :=
  t.date.Before t'.date ∨ t.date = t'.date ∧ (t.hour < t'.hour ∨ t.hour = t'.hour ∧
    (t.minute < t'.minute ∨ t.minute = t'.minute ∧
      (t.second < t'.second ∨ t.second = t'.second ∧ t.milli < t'.milli)))

/-- Numbers are compared by how often a unit is in them, then by the rest. -/
theorem mul_add_lt_iff {k a b x y : Nat} (hx : x < k) (hy : y < k) :
    a * k + x < b * k + y ↔ a < b ∨ a = b ∧ x < y := by
  constructor
  · intro h
    have hle : a ≤ b := by
      by_contra hlt
      have hmul := Nat.mul_le_mul_right k (Nat.lt_of_not_le hlt)
      rw [Nat.succ_mul] at hmul
      omega
    obtain hlt | rfl := Nat.lt_or_eq_of_le hle
    · exact Or.inl hlt
    · exact Or.inr ⟨rfl, by omega⟩
  · rintro (h | ⟨rfl, h⟩)
    · have hmul := Nat.mul_le_mul_right k h
      rw [Nat.succ_mul] at hmul
      omega
    · omega

/-- Quotient and remainder are determined by the number. -/
theorem mul_add_inj {k a b x y : Nat} (hx : x < k) (hy : y < k) :
    a * k + x = b * k + y ↔ a = b ∧ x = y := by
  have hlt := mul_add_lt_iff (a := a) (b := b) hx hy
  have hgt := mul_add_lt_iff (a := b) (b := a) hy hx
  omega

/-- Days with one number are the same. -/
theorem dayNumber_inj {d d' : Date} (h : epochYear ≤ d.year) (h' : epochYear ≤ d'.year) :
    d.dayNumber = d'.dayNumber ↔ d = d' := by
  constructor
  · intro heq
    obtain hlt | hdates | hlt := d.before_or_eq_or_before d'
    · exact absurd (hlt.dayNumber_lt h) (by omega)
    · exact hdates
    · exact absurd (hlt.dayNumber_lt h') (by omega)
  · rintro rfl
    rfl

/-- The order of the milliseconds is that of the points in time. -/
theorem DateTime.millis_lt_iff {t t' : DateTime} (h : epochYear ≤ t.date.year)
    (h' : epochYear ≤ t'.date.year) : t.millis < t'.millis ↔ t.Before t' := by
  rw [millis, millis, mul_add_lt_iff t.milli_lt t'.milli_lt, seconds, seconds,
    mul_add_lt_iff t.second_lt t'.second_lt, mul_add_inj t.second_lt t'.second_lt,
    mul_add_lt_iff t.minute_lt t'.minute_lt, mul_add_inj t.minute_lt t'.minute_lt,
    mul_add_lt_iff t.hour_lt t'.hour_lt, mul_add_inj t.hour_lt t'.hour_lt,
    dayNumber_lt_iff h h', dayNumber_inj h h', Before]
  tauto

end Calendar
