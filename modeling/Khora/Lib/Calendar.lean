import Mathlib.Data.Nat.Find
import Mathlib.Tactic.IntervalCases

/-!
# Civil date-times with an optional UTC offset

A date-time is a proleptic Gregorian date between the years 1 and 9999, a time of
day to the microsecond and, when it is *aware*, an offset from UTC.

* `ordinal_lt_ordinal` — the day number orders valid dates as their fields do.
* `ordinal_ofOrdinal` — `ofOrdinal` finds the date of a day number.
* `DateTime.wall_lt_iff` — the wall clock in microseconds orders date-times as
  their fields do.
* `DateTime.toUtc_spec` — conversion to UTC keeps the instant, and fails exactly
  when the instant leaves the calendar.
-/

namespace Calendar

/-! ## Day numbers -/

def isLeap (y : Nat) : Bool := y % 4 == 0 && (y % 100 != 0 || y % 400 == 0)

/-- Days of the years before `y`; year 1 is the first. -/
def daysBeforeYear (y : Nat) : Nat :=
  (y - 1) * 365 + (y - 1) / 4 - (y - 1) / 100 + (y - 1) / 400

def daysInMonth (y m : Nat) : Nat :=
  if m = 2 then (if isLeap y then 29 else 28)
  else if m = 4 ∨ m = 6 ∨ m = 9 ∨ m = 11 then 30 else 31

/-- Days of the months of year `y` before month `m`. -/
def daysBeforeMonth (y : Nat) : Nat → Nat
  | 0 => 0
  | 1 => 0
  | m + 2 => daysBeforeMonth y (m + 1) + daysInMonth y (m + 1)

/-- The number of a day, counting 1 January of year 1 as 1. -/
def ordinal (y m d : Nat) : Nat := daysBeforeYear y + daysBeforeMonth y m + d

def minYear : Nat := 1
def maxYear : Nat := 9999

def validDate (y m d : Nat) : Bool :=
  decide (minYear ≤ y) && decide (y ≤ maxYear) && decide (1 ≤ m) && decide (m ≤ 12) &&
    decide (1 ≤ d) && decide (d ≤ daysInMonth y m)

theorem daysBeforeYear_succ {y : Nat} (h : 1 ≤ y) :
    daysBeforeYear (y + 1) = daysBeforeYear y + (if isLeap y then 366 else 365) := by
  obtain ⟨p, rfl⟩ : ∃ p, y = p + 1 := ⟨y - 1, by omega⟩
  have hcent : p / 100 ≤ p / 4 := by omega
  have h100 : 100 ∣ p + 1 → 4 ∣ p + 1 := by omega
  have h400 : 400 ∣ p + 1 → 100 ∣ p + 1 := by omega
  have hleap : isLeap (p + 1) = true ↔ 4 ∣ p + 1 ∧ (¬ 100 ∣ p + 1 ∨ 400 ∣ p + 1) := by
    simp [isLeap, Nat.dvd_iff_mod_eq_zero]
  simp only [daysBeforeYear, Nat.add_sub_cancel, Nat.succ_div, hleap]
  by_cases h4 : 4 ∣ p + 1
  · by_cases hc : 100 ∣ p + 1
    · by_cases hq : 400 ∣ p + 1 <;> simp [h4, hc, hq] <;> omega
    · simp [h4, hc, mt h400 hc]
      omega
  · simp [h4, mt h100 h4, mt h400 (mt h100 h4)]
    omega

theorem daysBeforeYear_mono {a b : Nat} (ha : 1 ≤ a) (h : a ≤ b) :
    daysBeforeYear a ≤ daysBeforeYear b := by
  induction b, h using Nat.le_induction with
  | base => exact le_rfl
  | succ b hab ih =>
      rw [daysBeforeYear_succ (le_trans ha hab)]
      split <;> omega

/-- A year holds the days of its twelve months. -/
theorem daysBeforeMonth_thirteen (y : Nat) :
    daysBeforeMonth y 13 = if isLeap y then 366 else 365 := by
  simp only [daysBeforeMonth, daysInMonth]
  cases isLeap y <;> rfl

theorem daysBeforeMonth_succ (y : Nat) {m : Nat} (h : 1 ≤ m) :
    daysBeforeMonth y (m + 1) = daysBeforeMonth y m + daysInMonth y m := by
  obtain ⟨k, rfl⟩ : ∃ k, m = k + 1 := ⟨m - 1, by omega⟩
  rfl

theorem daysBeforeMonth_mono (y : Nat) {a b : Nat} (ha : 1 ≤ a) (h : a ≤ b) :
    daysBeforeMonth y a ≤ daysBeforeMonth y b := by
  induction b, h using Nat.le_induction with
  | base => exact le_rfl
  | succ b hab ih =>
      rw [daysBeforeMonth_succ y (le_trans ha hab)]
      omega

section Valid

variable {y m d y' m' d' : Nat}

theorem validDate_iff : validDate y m d = true ↔
    (minYear ≤ y ∧ y ≤ maxYear) ∧ (1 ≤ m ∧ m ≤ 12) ∧ 1 ≤ d ∧ d ≤ daysInMonth y m := by
  simp only [validDate, Bool.and_eq_true, decide_eq_true_eq, and_assoc]

/-- A valid date ends before the first day of the next month. -/
theorem ordinal_le_next_month (h : validDate y m d = true) :
    ordinal y m d ≤ daysBeforeYear y + daysBeforeMonth y (m + 1) := by
  obtain ⟨-, ⟨hm, -⟩, -, hd⟩ := validDate_iff.mp h
  rw [ordinal, daysBeforeMonth_succ y hm]
  omega

/-- A valid date ends before the first day of the next year. -/
theorem ordinal_le_next_year (h : validDate y m d = true) :
    ordinal y m d ≤ daysBeforeYear (y + 1) := by
  obtain ⟨⟨hy, -⟩, ⟨-, hm⟩, -, -⟩ := validDate_iff.mp h
  have hnext := ordinal_le_next_month h
  have hmono := daysBeforeMonth_mono y (show 1 ≤ m + 1 by omega) (show m + 1 ≤ 13 by omega)
  rw [daysBeforeMonth_thirteen] at hmono
  rw [daysBeforeYear_succ hy]
  omega

theorem lt_ordinal (h : validDate y m d = true) :
    daysBeforeYear y + daysBeforeMonth y m < ordinal y m d := by
  obtain ⟨-, -, hd, -⟩ := validDate_iff.mp h
  unfold ordinal
  omega

/-- **Day numbers order valid dates as their fields do.** -/
theorem ordinal_lt_ordinal (h : validDate y m d = true) (h' : validDate y' m' d' = true) :
    ordinal y m d < ordinal y' m' d' ↔
      y < y' ∨ y = y' ∧ (m < m' ∨ m = m' ∧ d < d') := by
  -- one direction of the field order, from which the other follows by trichotomy
  have key : ∀ {a b c a' b' c' : Nat}, validDate a b c = true → validDate a' b' c' = true →
      a < a' ∨ a = a' ∧ (b < b' ∨ b = b' ∧ c < c') → ordinal a b c < ordinal a' b' c' := by
    intro a b c a' b' c' hv hv' hlt
    obtain ⟨⟨ha, -⟩, ⟨hb, -⟩, -, -⟩ := validDate_iff.mp hv
    rcases hlt with hlt | ⟨rfl, hlt | ⟨rfl, hlt⟩⟩
    · have h1 := ordinal_le_next_year hv
      have h2 := daysBeforeYear_mono (show 1 ≤ a + 1 by omega) (show a + 1 ≤ a' by omega)
      have h3 := lt_ordinal hv'
      omega
    · have h1 := ordinal_le_next_month hv
      have h2 := daysBeforeMonth_mono a (show 1 ≤ b + 1 by omega) (show b + 1 ≤ b' by omega)
      have h3 := lt_ordinal hv'
      omega
    · unfold ordinal
      omega
  constructor
  · intro hlt
    by_contra hn
    by_cases heq : y = y' ∧ m = m' ∧ d = d'
    · obtain ⟨rfl, rfl, rfl⟩ := heq
      exact lt_irrefl _ hlt
    · have := key h' h (by omega)
      omega
  · exact key h h'

theorem ordinal_inj (h : validDate y m d = true) (h' : validDate y' m' d' = true)
    (heq : ordinal y m d = ordinal y' m' d') : y = y' ∧ m = m' ∧ d = d' := by
  have h1 := (ordinal_lt_ordinal h h').not.mp (by omega)
  have h2 := (ordinal_lt_ordinal h' h).not.mp (by omega)
  omega

end Valid

/-! ## The date of a day number -/

/-- The last day number of the calendar, 31 December 9999. -/
def maxOrdinal : Nat := daysBeforeYear (maxYear + 1)

/-- The year that day `n` falls in: counting up from the year it would be if every
year were a leap year. -/
def yearOf (n : Nat) : Nat :=
  (n - 1) / 366 + 1 + Nat.findGreatest (fun k => daysBeforeYear ((n - 1) / 366 + 1 + k) < n) 40

/-- The month of year `y` that its day `r` falls in. -/
def monthOf (y r : Nat) : Nat := Nat.findGreatest (fun m => daysBeforeMonth y m < r) 12

/-- The date of a day number. -/
def ofOrdinal (n : Nat) : Nat × Nat × Nat :=
  let y := yearOf n
  let r := n - daysBeforeYear y
  let m := monthOf y r
  (y, m, r - daysBeforeMonth y m)

theorem yearOf_spec {n : Nat} (h1 : 1 ≤ n) (h2 : n ≤ maxOrdinal) :
    1 ≤ yearOf n ∧ yearOf n ≤ maxYear ∧ daysBeforeYear (yearOf n) < n ∧
      n ≤ daysBeforeYear (yearOf n + 1) := by
  have h2' : n ≤ 3652059 := h2
  set b := (n - 1) / 366 + 1 with hb
  have hlow : daysBeforeYear b < n := by
    simp only [daysBeforeYear]
    omega
  set P : Nat → Prop := fun k => daysBeforeYear (b + k) < n with hP
  have hspec : P (Nat.findGreatest P 40) :=
    Nat.findGreatest_spec (m := 0) (Nat.zero_le _) (by simpa [hP] using hlow)
  have hk : Nat.findGreatest P 40 ≤ 40 := Nat.findGreatest_le 40
  have hhigh : ¬ P (Nat.findGreatest P 40 + 1) := by
    by_cases hlt : Nat.findGreatest P 40 < 40
    · exact Nat.findGreatest_is_greatest (Nat.lt_succ_self _) (by omega)
    · have h40 : Nat.findGreatest P 40 = 40 := by omega
      rw [h40]
      simp only [hP, daysBeforeYear]
      omega
  have hy : yearOf n = b + Nat.findGreatest P 40 := rfl
  rw [hy]
  generalize Nat.findGreatest P 40 = k at *
  simp only [hP] at hspec hhigh
  refine ⟨by omega, ?_, hspec, not_lt.mp hhigh⟩
  by_contra hgt
  have hmono := daysBeforeYear_mono (a := maxYear + 1) (b := b + k) (by decide) (by omega)
  have : n ≤ daysBeforeYear (maxYear + 1) := h2
  omega

theorem monthOf_spec {y r : Nat} (h1 : 1 ≤ r) (h2 : r ≤ daysBeforeMonth y 13) :
    1 ≤ monthOf y r ∧ monthOf y r ≤ 12 ∧ daysBeforeMonth y (monthOf y r) < r ∧
      r ≤ daysBeforeMonth y (monthOf y r + 1) := by
  set P : Nat → Prop := fun m => daysBeforeMonth y m < r with hP
  have hone : P 1 := by
    simp only [hP, daysBeforeMonth]
    omega
  have hspec : P (Nat.findGreatest P 12) := Nat.findGreatest_spec (by omega) hone
  have hpos : 1 ≤ Nat.findGreatest P 12 := Nat.le_findGreatest (by omega) hone
  have hle : Nat.findGreatest P 12 ≤ 12 := Nat.findGreatest_le 12
  refine ⟨hpos, hle, hspec, ?_⟩
  by_cases hlt : Nat.findGreatest P 12 < 12
  · exact not_lt.mp (Nat.findGreatest_is_greatest (Nat.lt_succ_self _) (by omega) : ¬ P _)
  · have h12 : monthOf y r = 12 := by
      show Nat.findGreatest P 12 = 12
      omega
    rw [h12]
    exact h2

/-- **The date found for a day number is valid and has that number.** -/
theorem ordinal_ofOrdinal {n : Nat} (h1 : 1 ≤ n) (h2 : n ≤ maxOrdinal) :
    validDate (ofOrdinal n).1 (ofOrdinal n).2.1 (ofOrdinal n).2.2 = true ∧
      ordinal (ofOrdinal n).1 (ofOrdinal n).2.1 (ofOrdinal n).2.2 = n := by
  obtain ⟨hy1, hy2, hlow, hhigh⟩ := yearOf_spec h1 h2
  have hlen : n - daysBeforeYear (yearOf n) ≤ daysBeforeMonth (yearOf n) 13 := by
    rw [daysBeforeYear_succ hy1] at hhigh
    rw [daysBeforeMonth_thirteen]
    omega
  obtain ⟨hm1, hm2, hml, hmh⟩ := monthOf_spec (by omega) hlen
  rw [daysBeforeMonth_succ _ hm1] at hmh
  simp only [ofOrdinal]
  constructor
  · rw [validDate_iff]
    refine ⟨⟨hy1, hy2⟩, ⟨hm1, hm2⟩, by omega, by omega⟩
  · unfold ordinal
    omega

/-! ## Date-times -/

def microsPerSecond : Nat := 1000000
def microsPerDay : Nat := 86400 * microsPerSecond

/-- A date-time.  `offset` is the distance from UTC in microseconds, `none` for a
naive value; the fields always name a time of the calendar. -/
structure DateTime where
  year : Nat
  month : Nat
  day : Nat
  hour : Nat
  minute : Nat
  second : Nat
  micro : Nat
  offset : Option Int
  date_valid : validDate year month day = true
  time_valid : hour < 24 ∧ minute < 60 ∧ second < 60 ∧ micro < microsPerSecond
  offset_valid : ∀ o ∈ offset, -(microsPerDay : Int) < o ∧ o < microsPerDay
deriving DecidableEq

theorem midnight_valid : 0 < 24 ∧ 0 < 60 ∧ 0 < 60 ∧ 0 < microsPerSecond := by decide

theorem naive_valid : ∀ o ∈ (none : Option Int), -(microsPerDay : Int) < o ∧ o < microsPerDay := nofun

theorem utc_valid : ∀ o ∈ some (0 : Int), -(microsPerDay : Int) < o ∧ o < microsPerDay := by
  intro o h
  cases h
  decide

namespace DateTime

/-- Build a date-time from its fields, if they name one. -/
def mk? (year month day hour minute second micro : Nat) (offset : Option Int) : Option DateTime :=
  if h : validDate year month day = true ∧
      (hour < 24 ∧ minute < 60 ∧ second < 60 ∧ micro < microsPerSecond) ∧
      ∀ o ∈ offset, -(microsPerDay : Int) < o ∧ o < microsPerDay then
    some ⟨year, month, day, hour, minute, second, micro, offset, h.1, h.2.1, h.2.2⟩
  else none

/-- Whether the value carries an offset. -/
def aware (d : DateTime) : Bool := d.offset.isSome

/-- Microseconds into the day. -/
def timeOfDay (d : DateTime) : Nat :=
  ((d.hour * 60 + d.minute) * 60 + d.second) * microsPerSecond + d.micro

/-- Microseconds on the wall clock, from the first instant of year 1. -/
def wall (d : DateTime) : Nat :=
  (ordinal d.year d.month d.day - 1) * microsPerDay + d.timeOfDay

/-- The instant, reading a naive value as UTC. -/
def instant (d : DateTime) : Int := d.wall - d.offset.getD 0

theorem timeOfDay_lt (d : DateTime) : d.timeOfDay < microsPerDay := by
  obtain ⟨hh, hm, hs, hu⟩ := d.time_valid
  unfold timeOfDay microsPerDay
  unfold microsPerSecond at *
  omega

theorem one_le_ordinal (d : DateTime) : 1 ≤ ordinal d.year d.month d.day := by
  have := lt_ordinal d.date_valid
  omega

/-- The fields in order of significance. -/
def fieldsLt (a b : DateTime) : Prop :=
  (a.year < b.year ∨ a.year = b.year ∧ (a.month < b.month ∨ a.month = b.month ∧ a.day < b.day)) ∨
    (a.year = b.year ∧ a.month = b.month ∧ a.day = b.day) ∧
      (a.hour < b.hour ∨ a.hour = b.hour ∧ (a.minute < b.minute ∨ a.minute = b.minute ∧
        (a.second < b.second ∨ a.second = b.second ∧ a.micro < b.micro)))

theorem timeOfDay_lt_iff (a b : DateTime) : a.timeOfDay < b.timeOfDay ↔
    a.hour < b.hour ∨ a.hour = b.hour ∧ (a.minute < b.minute ∨ a.minute = b.minute ∧
      (a.second < b.second ∨ a.second = b.second ∧ a.micro < b.micro)) := by
  obtain ⟨-, hm, hs, hu⟩ := a.time_valid
  obtain ⟨-, hm', hs', hu'⟩ := b.time_valid
  unfold timeOfDay
  unfold microsPerSecond at *
  omega

/-- **The wall clock orders date-times as their fields do.** -/
theorem wall_lt_iff (a b : DateTime) : a.wall < b.wall ↔ fieldsLt a b := by
  have hdate := ordinal_lt_ordinal a.date_valid b.date_valid
  have htime := timeOfDay_lt_iff a b
  have ha := a.timeOfDay_lt
  have hb := b.timeOfDay_lt
  have hoa := a.one_le_ordinal
  have hob := b.one_le_ordinal
  have hsame : ordinal a.year a.month a.day = ordinal b.year b.month b.day ↔
      a.year = b.year ∧ a.month = b.month ∧ a.day = b.day := by
    constructor
    · exact ordinal_inj a.date_valid b.date_valid
    · rintro ⟨h1, h2, h3⟩
      rw [h1, h2, h3]
  rw [fieldsLt, ← hdate, ← hsame, ← htime]
  unfold wall
  unfold microsPerDay microsPerSecond at *
  omega

theorem eq_of_wall_eq {a b : DateTime} (h : a.wall = b.wall) (ho : a.offset = b.offset) :
    a = b := by
  have h1 : ¬ fieldsLt a b := by
    rw [← wall_lt_iff]
    omega
  have h2 : ¬ fieldsLt b a := by
    rw [← wall_lt_iff]
    omega
  unfold fieldsLt at h1 h2
  obtain ⟨y, m, d, hh, mi, s, u, o, _, _, _⟩ := a
  obtain ⟨y', m', d', hh', mi', s', u', o', _, _, _⟩ := b
  simp only [mk.injEq]
  simp only at h1 h2 ho
  refine ⟨?_, ?_, ?_, ?_, ?_, ?_, ?_, ho⟩ <;> omega

/-- The number of microseconds of the calendar. -/
def maxWall : Nat := maxOrdinal * microsPerDay

theorem wall_lt_maxWall (d : DateTime) : d.wall < maxWall := by
  have h1 := ordinal_le_next_year d.date_valid
  obtain ⟨⟨hy, hy'⟩, -⟩ := validDate_iff.mp d.date_valid
  have h2 := daysBeforeYear_mono (a := d.year + 1) (b := maxYear + 1) (by omega) (by omega)
  have h3 := d.timeOfDay_lt
  have h4 := d.one_le_ordinal
  have h5 : ordinal d.year d.month d.day ≤ maxOrdinal := le_trans h1 h2
  unfold wall maxWall
  unfold microsPerDay microsPerSecond at *
  omega

/-- The UTC date-time of a wall-clock reading. -/
def ofWall? (t : Int) : Option DateTime :=
  if t < 0 ∨ (maxWall : Int) ≤ t then none
  else
    let n := t.toNat
    let r := n % microsPerDay
    let date := ofOrdinal (n / microsPerDay + 1)
    mk? date.1 date.2.1 date.2.2 (r / (3600 * microsPerSecond))
      (r / (60 * microsPerSecond) % 60) (r / microsPerSecond % 60) (r % microsPerSecond) (some 0)

theorem ofWall?_spec {t : Int} (h0 : 0 ≤ t) (h1 : t < maxWall) :
    ∃ d, ofWall? t = some d ∧ (d.wall : Int) = t ∧ d.offset = some 0 := by
  set n := t.toNat with hn
  have hnt : (n : Int) = t := Int.toNat_of_nonneg h0
  have hday : n / microsPerDay + 1 ≤ maxOrdinal := by
    unfold maxWall at h1
    unfold microsPerDay microsPerSecond at *
    omega
  obtain ⟨hv, ho⟩ := ordinal_ofOrdinal (Nat.le_add_left 1 _) hday
  have htime : n % microsPerDay / (3600 * microsPerSecond) < 24 ∧
      n % microsPerDay / (60 * microsPerSecond) % 60 < 60 ∧
      n % microsPerDay / microsPerSecond % 60 < 60 ∧
      n % microsPerDay % microsPerSecond < microsPerSecond := by
    unfold microsPerDay microsPerSecond
    omega
  refine ⟨⟨_, _, _, _, _, _, _, some 0, hv, htime, ?_⟩, ?_, ?_, rfl⟩
  · intro o hmem
    cases hmem
    decide
  · unfold ofWall?
    rw [if_neg (by omega)]
    simp only [← hn, mk?]
    rw [dif_pos]
    exact ⟨hv, htime, by intro o hmem; cases hmem; decide⟩
  · unfold wall timeOfDay
    simp only [ho]
    rw [← hnt]
    unfold microsPerDay microsPerSecond
    omega

/-- Convert to UTC: a naive value is read as UTC, an aware one is moved there.
`none` when the moved value leaves the calendar. -/
def toUtc (d : DateTime) : Option DateTime :=
  match d.offset with
  | none => some { d with offset := some 0, offset_valid := utc_valid }
  | some o => if o = 0 then some d else ofWall? d.instant

/-- The instant lies within the calendar. -/
def Convertible (d : DateTime) : Prop := 0 ≤ d.instant ∧ d.instant < maxWall

instance (d : DateTime) : Decidable d.Convertible := inferInstanceAs (Decidable (_ ∧ _))

theorem convertible_of_offset {d : DateTime} (h : d.offset.getD 0 = 0) : d.Convertible := by
  have := d.wall_lt_maxWall
  unfold Convertible instant
  rw [h]
  omega

/-- **Conversion to UTC keeps the instant, and succeeds exactly within the calendar.** -/
theorem toUtc_spec (d : DateTime) :
    (d.Convertible → ∃ u, d.toUtc = some u ∧ u.instant = d.instant ∧ u.offset = some 0) ∧
      (¬ d.Convertible → d.toUtc = none) := by
  unfold toUtc
  cases ho : d.offset with
  | none =>
      refine ⟨fun _ => ⟨_, rfl, ?_, rfl⟩, fun h => absurd (convertible_of_offset (by simp [ho])) h⟩
      simp [instant, wall, timeOfDay, ho]
  | some o =>
      simp only
      split
      case isTrue hz =>
          subst hz
          exact ⟨fun _ => ⟨d, rfl, rfl, ho⟩,
            fun h => absurd (convertible_of_offset (by simp [ho])) h⟩
      case isFalse hz =>
          constructor
          · rintro ⟨h0, h1⟩
            obtain ⟨u, hu, hw, huo⟩ := ofWall?_spec h0 h1
            refine ⟨u, hu, ?_, huo⟩
            simp only [instant, huo, Option.getD_some, hw]
            omega
          · intro h
            unfold ofWall?
            rw [if_pos]
            unfold Convertible at h
            omega

theorem toUtc_eq_self {d : DateTime} (h : d.offset = some 0) : d.toUtc = some d := by
  simp [toUtc, h]

theorem toUtc_eq_some_iff {d u : DateTime} :
    d.toUtc = some u ↔ d.instant = u.instant ∧ u.offset = some 0 := by
  obtain ⟨hok, hno⟩ := d.toUtc_spec
  constructor
  · intro h
    by_cases hc : d.Convertible
    · obtain ⟨v, hv, hi, hz⟩ := hok hc
      rw [hv] at h
      cases h
      exact ⟨hi.symm, hz⟩
    · rw [hno hc] at h
      cases h
  · rintro ⟨hi, hz⟩
    have hc : d.Convertible := by
      have := convertible_of_offset (d := u) (by simp [hz])
      unfold Convertible at *
      rwa [hi]
    obtain ⟨v, hv, hiv, hzv⟩ := hok hc
    rw [hv]
    congr 1
    apply eq_of_wall_eq _ (hzv.trans hz.symm)
    rw [hi] at hiv
    simp only [instant, hz, hzv, Option.getD_some, sub_zero] at hiv
    exact_mod_cast hiv

end DateTime

end Calendar
