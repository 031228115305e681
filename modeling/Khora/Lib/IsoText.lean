import Khora.Lib.Calendar
import Mathlib.Data.String.Basic

/-!
# ISO 8601 text of date-times

`isoformat` writes a date-time the way Python's `datetime.isoformat` does and
`fromisoformat` reads back the forms `datetime.fromisoformat` accepts: extended
and basic dates, week dates, any separator character, and an optional offset.

* `isoformat_injective` — the text determines the date-time.
* `isoformat_lt_iff` — between UTC values, text order is chronological order.
* `fromisoformat_isoformat` — reading back what was written.
-/

namespace Calendar

/-! ## Fixed-width decimals -/

/-- The last `width` decimal digits of `n`. -/
def pad : Nat → Nat → List Char
  | 0, _ => []
  | k + 1, n => pad k (n / 10) ++ [(n % 10).digitChar]

theorem digitChar_lt_iff {a b : Nat} (ha : a < 10) (hb : b < 10) :
    a.digitChar < b.digitChar ↔ a < b := by
  interval_cases a <;> interval_cases b <;> decide

theorem digitChar_inj {a b : Nat} (ha : a < 10) (hb : b < 10) (h : a.digitChar = b.digitChar) :
    a = b := by
  interval_cases a <;> interval_cases b <;> revert h <;> decide

@[simp] theorem length_pad (k n : Nat) : (pad k n).length = k := by
  induction k generalizing n with
  | zero => rfl
  | succ k ih => simp [pad, ih]

/-- Lists with prefixes of one length compare by the prefixes first. -/
theorem append_lt_append_iff {a b x y : List Char} (h : a.length = b.length) :
    a ++ x < b ++ y ↔ a < b ∨ a = b ∧ x < y := by
  induction a generalizing b with
  | nil =>
      obtain rfl : b = [] := by simpa using h.symm
      simp
  | cons c a ih =>
      cases b with
      | nil => simp at h
      | cons e b =>
          simp only [List.cons_append, List.cons_lt_cons_iff, List.cons.injEq,
            ih (by simpa using h)]
          tauto

theorem pad_injective {k n m : Nat} (hn : n < 10 ^ k) (hm : m < 10 ^ k)
    (h : pad k n = pad k m) : n = m := by
  induction k generalizing n m with
  | zero => simp at hn hm; omega
  | succ k ih =>
      obtain ⟨hp, hd⟩ := List.append_inj h (by simp)
      rw [Nat.pow_succ] at hn hm
      have hdiv := ih (by omega) (by omega) hp
      have hmod := digitChar_inj (Nat.mod_lt n (by omega)) (Nat.mod_lt m (by omega))
        (by simpa using hd)
      omega

theorem pad_lt_iff {k n m : Nat} (hn : n < 10 ^ k) (hm : m < 10 ^ k) :
    pad k n < pad k m ↔ n < m := by
  induction k generalizing n m with
  | zero => simp at hn hm; simp [pad]; omega
  | succ k ih =>
      rw [Nat.pow_succ] at hn hm
      have hn' : n / 10 < 10 ^ k := by omega
      have hm' : m / 10 < 10 ^ k := by omega
      have hdigit := digitChar_lt_iff (Nat.mod_lt n (show 10 > 0 by omega))
        (Nat.mod_lt m (show 10 > 0 by omega))
      have hsame : pad k (n / 10) = pad k (m / 10) ↔ n / 10 = m / 10 :=
        ⟨pad_injective hn' hm', fun h => by rw [h]⟩
      simp only [pad]
      rw [append_lt_append_iff (by simp), ih hn' hm', hsame]
      simp only [List.cons_lt_cons_iff, hdigit, lt_irrefl, and_false, or_false]
      omega

/-! ## Writing -/

namespace DateTime

def dateChars (d : DateTime) : List Char :=
  pad 4 d.year ++ ('-' :: (pad 2 d.month ++ ('-' :: pad 2 d.day)))

def timeChars (d : DateTime) : List Char :=
  pad 2 d.hour ++ (':' :: (pad 2 d.minute ++ (':' :: pad 2 d.second)))

/-- Microseconds, left out when zero. -/
def fractionChars (u : Nat) : List Char := if u = 0 then [] else '.' :: pad 6 u

/-- An offset `±HH:MM`, with seconds and microseconds only when they are needed. -/
def offsetChars (o : Int) : List Char :=
  let a := o.natAbs
  let s := a / microsPerSecond
  let u := a % microsPerSecond
  (if o < 0 then '-' else '+') :: (pad 2 (s / 3600) ++ (':' :: (pad 2 (s / 60 % 60) ++
    (if s % 60 = 0 ∧ u = 0 then [] else ':' :: (pad 2 (s % 60) ++ fractionChars u)))))

def isoChars (d : DateTime) : List Char :=
  d.dateChars ++ ('T' :: (d.timeChars ++ (fractionChars d.micro ++
    match d.offset with
    | none => []
    | some o => offsetChars o)))

def isoformat (d : DateTime) : String := String.ofList d.isoChars

@[simp] theorem length_dateChars (d : DateTime) : d.dateChars.length = 10 := by
  simp [dateChars]

@[simp] theorem length_timeChars (d : DateTime) : d.timeChars.length = 8 := by
  simp [timeChars]

theorem year_lt (d : DateTime) : d.year < 10 ^ 4 := by
  have := (validDate_iff.mp d.date_valid).1.2
  unfold maxYear at this
  omega

theorem month_lt (d : DateTime) : d.month < 10 ^ 2 := by
  have := (validDate_iff.mp d.date_valid).2.1.2
  omega

theorem day_lt (d : DateTime) : d.day < 10 ^ 2 := by
  have := (validDate_iff.mp d.date_valid).2.2.2
  unfold daysInMonth at this
  split at this
  · split at this <;> omega
  · split at this <;> omega

theorem hour_lt (d : DateTime) : d.hour < 10 ^ 2 := by
  have := d.time_valid.1
  omega

theorem minute_lt (d : DateTime) : d.minute < 10 ^ 2 := by
  have := d.time_valid.2.1
  omega

theorem second_lt (d : DateTime) : d.second < 10 ^ 2 := by
  have := d.time_valid.2.2.1
  omega

theorem micro_lt (d : DateTime) : d.micro < 10 ^ 6 := d.time_valid.2.2.2

theorem dateChars_inj {a b : DateTime} (h : a.dateChars = b.dateChars) :
    a.year = b.year ∧ a.month = b.month ∧ a.day = b.day := by
  obtain ⟨hy, h⟩ := List.append_inj h (by simp)
  obtain ⟨hm, h⟩ := List.append_inj (List.cons.inj h).2 (by simp)
  exact ⟨pad_injective a.year_lt b.year_lt hy, pad_injective a.month_lt b.month_lt hm,
    pad_injective a.day_lt b.day_lt (List.cons.inj h).2⟩

theorem timeChars_inj {a b : DateTime} (h : a.timeChars = b.timeChars) :
    a.hour = b.hour ∧ a.minute = b.minute ∧ a.second = b.second := by
  obtain ⟨hh, h⟩ := List.append_inj h (by simp)
  obtain ⟨hm, h⟩ := List.append_inj (List.cons.inj h).2 (by simp)
  exact ⟨pad_injective a.hour_lt b.hour_lt hh, pad_injective a.minute_lt b.minute_lt hm,
    pad_injective a.second_lt b.second_lt (List.cons.inj h).2⟩

/-- A fraction is told from what follows it, when that does not start with a point. -/
theorem fractionChars_append_inj {u v : Nat} {x y : List Char} (hu : u < 10 ^ 6)
    (hv : v < 10 ^ 6) (hx : x.head? ≠ some '.') (hy : y.head? ≠ some '.')
    (h : fractionChars u ++ x = fractionChars v ++ y) : u = v ∧ x = y := by
  unfold fractionChars at h
  split at h <;> split at h
  · rename_i h1 h2
    exact ⟨h1.trans h2.symm, h⟩
  · rw [List.nil_append] at h
    rw [h] at hx
    simp at hx
  · rw [List.nil_append] at h
    rw [← h] at hy
    simp at hy
  · obtain ⟨hp, hxy⟩ := List.append_inj (List.cons.inj h).2 (by simp)
    exact ⟨pad_injective hu hv hp, hxy⟩

theorem offsetChars_head (o : Int) : (offsetChars o).head? ≠ some '.' := by
  simp only [offsetChars, List.head?_cons]
  split <;> decide

theorem offsetChars_inj {o p : Int} (ho : -(microsPerDay : Int) < o ∧ o < microsPerDay)
    (hp : -(microsPerDay : Int) < p ∧ p < microsPerDay) (h : offsetChars o = offsetChars p) :
    o = p := by
  obtain ⟨hsign, h⟩ := List.cons.inj h
  obtain ⟨hh, h⟩ := List.append_inj h (by simp)
  obtain ⟨hm, h⟩ := List.append_inj (List.cons.inj h).2 (by simp)
  unfold microsPerDay at ho hp
  unfold microsPerSecond at *
  have hh := pad_injective (by omega) (by omega) hh
  have hm := pad_injective (by omega) (by omega) hm
  have hs : o < 0 ↔ p < 0 := by
    by_cases h1 : o < 0 <;> by_cases h2 : p < 0 <;> simp [h1, h2] at hsign ⊢
  -- the seconds and microseconds, whether they are written or not
  have hrest : o.natAbs / 1000000 % 60 = p.natAbs / 1000000 % 60 ∧
      o.natAbs % 1000000 = p.natAbs % 1000000 := by
    split at h <;> split at h
    · rename_i h1 h2
      omega
    · simp at h
    · simp at h
    · obtain ⟨hsec, hfr⟩ := List.append_inj (List.cons.inj h).2 (by simp)
      have hfr : fractionChars (o.natAbs % 1000000) ++ [] =
          fractionChars (p.natAbs % 1000000) ++ [] := by rw [hfr]
      have hu := fractionChars_append_inj (by omega) (by omega) (by simp) (by simp) hfr
      exact ⟨pad_injective (by omega) (by omega) hsec, hu.1⟩
  have habs : o.natAbs = p.natAbs := by omega
  omega

/-- **The text of a date-time determines it.** -/
theorem isoformat_injective : Function.Injective isoformat := by
  intro a b h
  have h : a.isoChars = b.isoChars := String.ofList_injective h
  obtain ⟨hd, h⟩ := List.append_inj h (by simp)
  obtain ⟨ht, h⟩ := List.append_inj (List.cons.inj h).2 (by simp)
  have hhead : ∀ o : Option Int, (match o with
      | none => []
      | some o => offsetChars o).head? ≠ some '.' := by
    intro o
    cases o with
    | none => simp
    | some o => exact offsetChars_head o
  obtain ⟨hu, h⟩ := fractionChars_append_inj a.micro_lt b.micro_lt (hhead _) (hhead _) h
  have hoff : a.offset = b.offset := by
    have hva := a.offset_valid
    have hvb := b.offset_valid
    revert h hva hvb
    cases a.offset <;> cases b.offset <;> intro h hva hvb
    · rfl
    · simp [offsetChars] at h
    · simp [offsetChars] at h
    · rw [offsetChars_inj (hva _ rfl) (hvb _ rfl) h]
  obtain ⟨hy, hmo, hda⟩ := dateChars_inj hd
  obtain ⟨hho, hmi, hse⟩ := timeChars_inj ht
  cases a
  cases b
  simp_all

/-- **Between UTC values, text order is the order of the instants.** -/
theorem isoformat_lt_iff {a b : DateTime} (ha : a.offset = some 0) (hb : b.offset = some 0) :
    a.isoformat < b.isoformat ↔ a.instant < b.instant := by
  have hinst : a.instant < b.instant ↔ a.wall < b.wall := by
    simp [instant, ha, hb]
  have hfrac : ∀ {u v : Nat}, u < 10 ^ 6 → v < 10 ^ 6 →
      (fractionChars u ++ offsetChars 0 < fractionChars v ++ offsetChars 0 ↔ u < v) := by
    intro u v hu hv
    unfold fractionChars
    split <;> split
    · rename_i h1 h2
      simp only [List.nil_append, h1, h2, lt_irrefl]
    · rename_i h1 h2
      have : offsetChars 0 < '.' :: pad 6 v ++ offsetChars 0 := by
        simp only [offsetChars, List.cons_append, List.cons_lt_cons_iff]
        exact Or.inl (by decide)
      exact ⟨fun _ => by omega, fun _ => this⟩
    · rename_i h1 h2
      have : ¬ '.' :: pad 6 u ++ offsetChars 0 < offsetChars 0 := by
        simp only [offsetChars, List.cons_append, List.cons_lt_cons_iff]
        rintro (h | ⟨h, -⟩) <;> revert h <;> decide
      exact ⟨fun h => absurd h this, fun h => by omega⟩
    · rw [append_lt_append_iff (by simp), List.cons_lt_cons_iff, pad_lt_iff hu hv]
      simp
  rw [hinst, wall_lt_iff, String.lt_iff_toList_lt]
  simp only [isoformat, String.toList_ofList, isoChars, dateChars, timeChars, ha, hb,
    List.append_assoc, List.cons_append]
  have hlen : ∀ (k n m : Nat), (pad k n).length = (pad k m).length := by simp
  have hpad : ∀ {k n m : Nat}, n < 10 ^ k → m < 10 ^ k → (pad k n = pad k m ↔ n = m) :=
    fun hn hm => ⟨pad_injective hn hm, fun h => by rw [h]⟩
  simp only [append_lt_append_iff (hlen _ _ _), List.cons_lt_cons_iff, lt_irrefl, false_or,
    true_and, pad_lt_iff a.year_lt b.year_lt, pad_lt_iff a.month_lt b.month_lt,
    pad_lt_iff a.day_lt b.day_lt, pad_lt_iff a.hour_lt b.hour_lt,
    pad_lt_iff a.minute_lt b.minute_lt, pad_lt_iff a.second_lt b.second_lt,
    hpad a.year_lt b.year_lt, hpad a.month_lt b.month_lt, hpad a.day_lt b.day_lt,
    hpad a.hour_lt b.hour_lt, hpad a.minute_lt b.minute_lt, hpad a.second_lt b.second_lt,
    hfrac a.micro_lt b.micro_lt, fieldsLt]
  tauto

end DateTime

/-! ## Reading -/

/-- The value of a decimal digit. -/
def digit? (c : Char) : Option Nat :=
  if '0' ≤ c ∧ c ≤ '9' then some (c.toNat - '0'.toNat) else none

/-- Read decimal digits up to the end. -/
def number? (acc : Nat) : List Char → Option Nat
  | [] => some acc
  | c :: cs => do
      let d ← digit? c
      number? (acc * 10 + d) cs

/-- Read exactly `k` decimal digits. -/
def digits? (k : Nat) (cs : List Char) : Option (Nat × List Char) :=
  if cs.length < k then none
  else do
    let n ← number? 0 (cs.take k)
    some (n, cs.drop k)

/-- Monday of the first ISO week of a year, as a day number. -/
def isoWeek1Monday (y : Nat) : Nat :=
  let first := ordinal y 1 1
  let weekday := (first + 6) % 7
  if 3 < weekday then first - weekday + 7 else first - weekday

/-- The date of a day of an ISO week. -/
def isoWeekToDate (y week day : Nat) : Option (Nat × Nat × Nat) :=
  let firstWeekday := (ordinal y 1 1 + 6) % 7
  let longYear := firstWeekday == 3 || (firstWeekday == 2 && isLeap y)
  if y < minYear ∨ maxYear < y then none
  else if week = 0 ∨ 53 < week ∨ (week = 53 ∧ longYear = false) then none
  else if day = 0 ∨ 7 < day then none
  else
    let n := isoWeek1Monday y + ((week - 1) * 7 + (day - 1))
    if n = 0 ∨ maxOrdinal < n then none else some (ofOrdinal n)

/-- Drop one separator where the text uses them, and require that it does so
throughout. -/
def separator? (uses : Bool) (sep : Char) (cs : List Char) : Option (List Char) :=
  if uses then (if cs.head? = some sep then some cs.tail else none) else some cs

/-- The position of the character between date and time. -/
def separatorAt (cs : List Char) : Option Nat :=
  let at? (i : Nat) : Option Char := cs[i]?
  let isDigitAt (i : Nat) : Bool := ((at? i).bind digit?).isSome
  if cs.length < 7 then none
  else if cs.length = 7 then some 7
  else if at? 4 = some '-' then
    if at? 5 = some 'W' then
      if at? 8 = some '-' then
        -- `YYYY-Www-##`: the hyphen is taken as the separator
        if cs.length = 9 then none else if isDigitAt 10 then some 8 else some 10
      else some 8
    else some 10
  else if at? 4 = some 'W' then
    let idx := 7 + ((cs.drop 7).takeWhile fun c => (digit? c).isSome).length
    if idx < 9 then some idx else if idx % 2 = 0 then some 7 else some 8
  else some 8

def parseDate (cs : List Char) : Option (Nat × Nat × Nat) := do
  let (y, rest) ← digits? 4 cs
  let sep := rest.head? == some '-'
  let rest := if sep then rest.tail else rest
  if rest.head? = some 'W' then do
    let (week, rest) ← digits? 2 rest.tail
    if rest = [] then isoWeekToDate y week 1
    else do
      let rest ← separator? sep '-' rest
      let (day, _) ← digits? 1 rest
      isoWeekToDate y week day
  else do
    let (m, rest) ← digits? 2 rest
    let rest ← separator? sep '-' rest
    let (d, rest) ← digits? 2 rest
    if rest = [] then some (y, m, d) else none

/-- A decimal fraction of a second, to the microsecond; further digits are cut off. -/
def parseFraction (cs : List Char) : Option Nat :=
  if cs = [] ∨ !cs.all (fun c => (digit? c).isSome) then none
  else (number? 0 (cs.take 6)).map (· * 10 ^ (6 - cs.length))

/-- `HH[:MM[:SS[.ffffff]]]`, with or without the colons. -/
def parseHms (cs : List Char) : Option (Nat × Nat × Nat × Nat) := do
  let (h, rest) ← digits? 2 cs
  let sep := rest.head? == some ':'
  if rest = [] then some (h, 0, 0, 0)
  else do
    let rest ← separator? sep ':' rest
    let (m, rest) ← digits? 2 rest
    if rest = [] then some (h, m, 0, 0)
    else do
      let rest ← separator? sep ':' rest
      let (s, rest) ← digits? 2 rest
      match rest with
      | [] => some (h, m, s, 0)
      | c :: rest =>
          if c = '.' ∨ c = ',' then (parseFraction rest).map fun u => (h, m, s, u) else none

/-- An offset: nothing, `Z`, or a sign and a time. -/
def parseOffset : List Char → Option (Option Int)
  | [] => some none
  | 'Z' :: rest => if rest = [] then some (some 0) else none
  | sign :: rest => do
      let (h, m, s, u) ← parseHms rest
      let a : Int := ((h * 3600 + m * 60 + s) * microsPerSecond + u : Nat)
      some (some (if sign = '-' then -a else a))

def startsOffset (c : Char) : Bool := c == '+' || c == '-' || c == 'Z'

/-- Read an ISO 8601 date-time; `none` where Python raises `ValueError`. -/
def fromisoformat (text : String) : Option DateTime := do
  let cs := text.toList
  let pos ← separatorAt cs
  let (y, m, d) ← parseDate (cs.take pos)
  let time := cs.drop (pos + 1)
  if time = [] then DateTime.mk? y m d 0 0 0 0 none
  else do
    let (h, mi, s, u) ← parseHms (time.takeWhile fun c => !startsOffset c)
    let offset ← parseOffset (time.dropWhile fun c => !startsOffset c)
    DateTime.mk? y m d h mi s u offset

/-! ## Reading back -/

theorem digit?_digitChar {d : Nat} (h : d < 10) : digit? d.digitChar = some d := by
  interval_cases d <;> decide

theorem number?_append (acc : Nat) (xs ys : List Char) :
    number? acc (xs ++ ys) = (number? acc xs).bind fun n => number? n ys := by
  induction xs generalizing acc with
  | nil => rfl
  | cons c xs ih =>
      simp only [List.cons_append, number?]
      cases digit? c with
      | none => rfl
      | some d => exact ih _

theorem number?_pad {k n : Nat} (h : n < 10 ^ k) : number? 0 (pad k n) = some n := by
  induction k generalizing n with
  | zero => simp at h; simp [pad, number?, h]
  | succ k ih =>
      rw [Nat.pow_succ] at h
      simp only [pad, number?_append, ih (show n / 10 < 10 ^ k by omega), Option.bind_some, number?,
        digit?_digitChar (Nat.mod_lt n (show 10 > 0 by omega)), Option.bind_eq_bind,
        Option.some.injEq]
      omega

theorem digits?_pad_append {k n : Nat} (h : n < 10 ^ k) (rest : List Char) :
    digits? k (pad k n ++ rest) = some (n, rest) := by
  simp [digits?, number?_pad h, List.take_left', List.drop_left']

theorem pad_all_digit (k n : Nat) : ∀ c ∈ pad k n, (digit? c).isSome = true := by
  induction k generalizing n with
  | zero => simp [pad]
  | succ k ih =>
      intro c hc
      rcases List.mem_append.mp hc with hc | hc
      · exact ih _ c hc
      · rw [List.mem_singleton.mp hc, digit?_digitChar (Nat.mod_lt n (by omega))]
        rfl

theorem not_startsOffset_of_digit {c : Char} (h : (digit? c).isSome = true) :
    startsOffset c = false := by
  unfold digit? at h
  split at h
  · rename_i hc
    simp only [startsOffset, Bool.or_eq_false_iff, beq_eq_false_iff_ne, ne_eq]
    refine ⟨⟨?_, ?_⟩, ?_⟩ <;> rintro rfl <;> revert hc <;> decide
  · cases h

theorem parseFraction_pad {u : Nat} (hu : u < 10 ^ 6) : parseFraction (pad 6 u) = some u := by
  have hall : (pad 6 u).all (fun c => (digit? c).isSome) = true :=
    List.all_eq_true.mpr (pad_all_digit 6 u)
  have hne : pad 6 u ≠ [] := by simp [pad]
  have htake : (pad 6 u).take 6 = pad 6 u := List.take_of_length_le (by simp)
  simp [parseFraction, hall, hne, htake, number?_pad hu]

/-- A clock time with seconds is read back. -/
theorem parseHms_clock {h m s u : Nat} (hh : h < 10 ^ 2) (hm : m < 10 ^ 2) (hs : s < 10 ^ 2)
    (hu : u < 10 ^ 6) :
    parseHms (pad 2 h ++ (':' :: (pad 2 m ++ (':' :: (pad 2 s ++ DateTime.fractionChars u))))) =
      some (h, m, s, u) := by
  simp only [parseHms, digits?_pad_append hh, digits?_pad_append hm, digits?_pad_append hs,
    Option.bind_eq_bind, Option.bind_some, List.head?_cons, separator?, List.tail_cons,
    reduceCtorEq, if_false, beq_self_eq_true, if_true]
  by_cases hz : u = 0
  · simp [DateTime.fractionChars, hz]
  · simp [DateTime.fractionChars, hz, parseFraction_pad hu]

/-- So is one without seconds. -/
theorem parseHms_short {h m : Nat} (hh : h < 10 ^ 2) (hm : m < 10 ^ 2) :
    parseHms (pad 2 h ++ (':' :: pad 2 m)) = some (h, m, 0, 0) := by
  have hmin : digits? 2 (pad 2 m) = some (m, []) := by
    simpa using digits?_pad_append hm []
  simp [parseHms, digits?_pad_append hh, hmin, separator?]

/-- A signed offset, from the time after the sign. -/
theorem parseOffset_cons {sign : Char} {rest : List Char} {h m s u : Nat}
    (hz : sign ≠ 'Z') (hrest : parseHms rest = some (h, m, s, u)) :
    parseOffset (sign :: rest) =
      some (some (if sign = '-' then -(((h * 3600 + m * 60 + s) * microsPerSecond + u : Nat) : Int)
        else (((h * 3600 + m * 60 + s) * microsPerSecond + u : Nat) : Int))) := by
  unfold parseOffset
  split
  · rename_i heq
    cases heq
  · rename_i heq
    cases heq
    exact absurd rfl hz
  · rename_i heq
    cases heq
    rw [hrest]
    rfl

/-- An offset is read back. -/
theorem parseOffset_offsetChars {o : Int} (h : -(microsPerDay : Int) < o ∧ o < microsPerDay) :
    parseOffset (DateTime.offsetChars o) = some (some o) := by
  have habs : o.natAbs < microsPerDay := by omega
  have hs : o.natAbs / microsPerSecond < 86400 := by
    simp only [microsPerDay, microsPerSecond] at habs ⊢
    omega
  have hu : o.natAbs % microsPerSecond < 10 ^ 6 := Nat.mod_lt _ (by decide)
  generalize hsec : o.natAbs / microsPerSecond = s at hs
  generalize hmic : o.natAbs % microsPerSecond = u at hu
  have hsum : s * microsPerSecond + u = o.natAbs := by
    rw [← hsec, ← hmic, Nat.mul_comm]
    exact Nat.div_add_mod _ _
  have hread : parseHms (pad 2 (s / 3600) ++ (':' :: (pad 2 (s / 60 % 60) ++
      (if s % 60 = 0 ∧ u = 0 then [] else ':' :: (pad 2 (s % 60) ++ DateTime.fractionChars u))))) =
      some (s / 3600, s / 60 % 60, s % 60, u) := by
    split
    · rename_i hzero
      rw [List.append_nil, parseHms_short (by omega) (by omega), hzero.1, hzero.2]
    · exact parseHms_clock (by omega) (by omega) (by omega) hu
  have htotal : s / 3600 * 3600 + s / 60 % 60 * 60 + s % 60 = s := by omega
  simp only [DateTime.offsetChars, hsec, hmic]
  by_cases hneg : o < 0
  · rw [if_pos hneg, parseOffset_cons (by decide) hread, htotal, hsum, if_pos rfl]
    simp only [Option.some.injEq]
    omega
  · rw [if_neg hneg, parseOffset_cons (by decide) hread, htotal, hsum, if_neg (by decide)]
    simp only [Option.some.injEq]
    omega

namespace DateTime

variable (d : DateTime)

theorem parseDate_dateChars : parseDate d.dateChars = some (d.year, d.month, d.day) := by
  have hmonth : ∀ rest, (pad 2 d.month ++ rest).head? ≠ some 'W' := by
    intro rest h
    have : 'W' ∈ pad 2 d.month := by
      have hlen : (pad 2 d.month).length = 2 := length_pad 2 _
      cases hp : pad 2 d.month with
      | nil => rw [hp] at hlen; cases hlen
      | cons c cs => rw [hp] at h; simp_all
    exact absurd (pad_all_digit _ _ _ this) (by decide)
  have hday : digits? 2 (pad 2 d.day) = some (d.day, []) := by
    simpa using digits?_pad_append d.day_lt []
  simp only [parseDate, dateChars, digits?_pad_append d.year_lt, Option.bind_eq_bind,
    Option.bind_some, List.head?_cons, beq_self_eq_true, if_true, List.tail_cons, hmonth, if_false,
    digits?_pad_append d.month_lt, separator?, hday]

theorem parseHms_timeChars :
    parseHms (d.timeChars ++ fractionChars d.micro) =
      some (d.hour, d.minute, d.second, d.micro) := by
  have hclock := parseHms_clock d.hour_lt d.minute_lt d.second_lt d.micro_lt
  simpa [timeChars] using hclock

theorem separatorAt_isoChars : separatorAt d.isoChars = some 10 := by
  have h4 : d.isoChars[4]? = some '-' := by
    simp [isoChars, dateChars]
  have h5 : d.isoChars[5]? ≠ some 'W' := by
    intro h
    have hmem : 'W' ∈ pad 2 d.month := by
      have : d.isoChars[5]? = (pad 2 d.month)[0]? := by
        simp [isoChars, dateChars, List.getElem?_append]
      rw [this] at h
      exact List.mem_of_getElem? h
    exact absurd (pad_all_digit _ _ _ hmem) (by decide)
  have hlen : 18 < d.isoChars.length := by
    simp [isoChars]
    omega
  unfold separatorAt
  simp only [h4, h5, if_true, if_false]
  rw [if_neg (by omega), if_neg (by omega)]

/-- The characters of an offset; a naive value has none. -/
def offsetText : List Char :=
  match d.offset with
  | none => []
  | some o => offsetChars o

theorem offsetText_head : d.offsetText.takeWhile (fun c => !startsOffset c) = [] ∧
    d.offsetText.dropWhile (fun c => !startsOffset c) = d.offsetText := by
  unfold offsetText
  cases d.offset with
  | none => simp
  | some o => by_cases hneg : o < 0 <;> simp [offsetChars, hneg, startsOffset]

theorem parseOffset_offsetText : parseOffset d.offsetText = some d.offset := by
  unfold offsetText
  cases ho : d.offset with
  | none => rfl
  | some o => exact parseOffset_offsetChars (d.offset_valid o ho)

/-- **Reading back the text of a value gives the value.** -/
theorem fromisoformat_isoformat : fromisoformat d.isoformat = some d := by
  have hdate : d.isoChars.take 10 = d.dateChars := by
    simp [isoChars]
  have htime : d.isoChars.drop 11 = (d.timeChars ++ fractionChars d.micro) ++ d.offsetText := by
    simp [isoChars, List.drop_append, offsetText]
  have hplain : ∀ c ∈ d.timeChars ++ fractionChars d.micro, (!startsOffset c) = true := by
    have hp : ∀ k n c, c ∈ pad k n → startsOffset c = false := fun k n c hc =>
      not_startsOffset_of_digit (pad_all_digit k n c hc)
    intro c hc
    simp only [timeChars, fractionChars, List.mem_append, List.mem_cons] at hc
    rw [Bool.not_eq_true']
    rcases hc with (hc | rfl | hc | rfl | hc) | hc
    · exact hp _ _ _ hc
    · decide
    · exact hp _ _ _ hc
    · decide
    · exact hp _ _ _ hc
    · split at hc
      · cases hc
      · rcases List.mem_cons.mp hc with rfl | hc
        · decide
        · exact hp _ _ _ hc
  have htw : (d.timeChars ++ fractionChars d.micro ++ d.offsetText).takeWhile
      (fun c => !startsOffset c) = d.timeChars ++ fractionChars d.micro := by
    rw [List.takeWhile_append_of_pos hplain, d.offsetText_head.1, List.append_nil]
  have hdw : (d.timeChars ++ fractionChars d.micro ++ d.offsetText).dropWhile
      (fun c => !startsOffset c) = d.offsetText := by
    rw [List.dropWhile_append_of_pos hplain, d.offsetText_head.2]
  have hne : d.timeChars ++ fractionChars d.micro ++ d.offsetText ≠ [] := by
    simp [timeChars]
  unfold fromisoformat
  simp only [isoformat, String.toList_ofList, separatorAt_isoChars, Option.bind_eq_bind,
    Option.bind_some, hdate, parseDate_dateChars, htime, hne, if_false, htw, hdw,
    parseHms_timeChars, parseOffset_offsetText]
  rw [mk?, dif_pos ⟨d.date_valid, d.time_valid, d.offset_valid⟩]

end DateTime

end Calendar
