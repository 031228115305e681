import Khora.Filter.Value
import Khora.Lib.Binary64
import Mathlib.Data.List.Forall2

/-!
# Temporal filters, one item at a time and in a batch

A temporal filter tests a date-time against its bounds.  The batched path turns dates into epoch
seconds, as floats, and asks a mask for the verdicts; the per-item path compares the dates.  Either
raises where a date in UTC, or a time so many days ago, is out of the calendar.

* `fallback_spec` — the path that a chunk without dates switches the batch to.
* `batch_eq_perItem_iff` — the batches on which the two agree, on either backend of the mask.
* `openEnd_diverges` — a filter without its bound.
-/

namespace Khora

namespace BatchTemporal

/-! ## Dates -/

/-- A date-time: its wall clock in microseconds from 1970-01-01T00:00, and its offset from UTC if
it is aware. -/
structure Datetime where
  wall : ℤ
  offset : Option ℤ
deriving DecidableEq

/-- The first and the last date-time of the calendar. -/
def minMicros : ℤ := -62135596800000000

def maxMicros : ℤ := 253402300799999999

def checked (us : ℤ) : Except PyErr ℤ :=
  if minMicros ≤ us ∧ us ≤ maxMicros then .ok us else .error .overflowError

/-- `_normalize_tz`: the naive date-time in UTC, in microseconds from 1970-01-01T00:00. -/
def Datetime.normalizeTz (d : Datetime) : Except PyErr ℤ :=
  match d.offset with
  | none => .ok d.wall
  | some offset => checked (d.wall - offset)

/-- A `timedelta` before the date-time.  (One that is too long to be made is longer than the calendar.) -/
def Datetime.sub (d : Datetime) (us : ℤ) : Except PyErr Datetime :=
  (checked (d.wall - us)).map fun wall => { d with wall := wall }

/-- `_dt_to_epoch` of a normalized date-time: `total_seconds()`, a division rounded to a float. -/
def dtToEpoch (us : ℤ) : ℚ := Binary64.nearest (us / 1000000)

theorem dtToEpoch_mono {a b : ℤ} (h : a ≤ b) : dtToEpoch a ≤ dtToEpoch b := by
  apply Binary64.nearest_mono
  apply div_le_div_of_nonneg_right _ (by norm_num)
  exact_mod_cast h

theorem lt_of_dtToEpoch_lt {a b : ℤ} (h : dtToEpoch a < dtToEpoch b) : a < b := by
  by_contra hge
  exact absurd (dtToEpoch_mono (not_lt.mp hge)) (not_le.mpr h)

/-! ## Filters -/

inductive TemporalOperator where
  | before
  | after
  | between
  | during
  | overlaps
deriving DecidableEq

structure TemporalFilter where
  operator : TemporalOperator
  startTime : Option Datetime
  endTime : Option Datetime
  relativeDays : Option ℤ
  relativeHours : Option ℤ

/-- `TemporalFilter.__init__` -/
def TemporalFilter.init (operator : TemporalOperator)
    (startTime endTime startDate endDate : Option Datetime) (relativeDays relativeHours : Option ℤ) :
    TemporalFilter :=
  let start := startTime.or startDate
  let stop := endTime.or endDate
  { operator :=
      if start.isSome && stop.isSome then .between
      else if stop.isSome && !start.isSome then .before
      else operator
    startTime := start
    endTime := stop
    relativeDays := relativeDays
    relativeHours := relativeHours }

def microsPerHour : ℤ := 3600000000

/-- `get_effective_times`, at a reading of the clock. -/
def TemporalFilter.effectiveTimes (f : TemporalFilter) (now : Datetime) :
    Except PyErr (Option Datetime × Option Datetime) := do
  let start ← match f.relativeDays with
    | some days => (now.sub (days * (24 * microsPerHour))).map some
    | none => .ok f.startTime
  let start ← match f.relativeHours with
    | some hours => (now.sub (hours * microsPerHour)).map some
    | none => .ok start
  return (start, f.endTime)

def normalizeOpt : Option Datetime → Except PyErr (Option ℤ)
  | none => .ok none
  | some d => d.normalizeTz.map some

/-- The effective times, normalized. -/
def TemporalFilter.bounds (f : TemporalFilter) (now : Datetime) : Except PyErr (Option ℤ × Option ℤ) := do
  let times ← f.effectiveTimes now
  let start ← normalizeOpt times.1
  let stop ← normalizeOpt times.2
  return (start, stop)

/-- `matches` for a normalized timestamp. -/
def verdict (operator : TemporalOperator) (start stop : Option ℤ) (t : ℤ) : Bool :=
  match operator with
  | .before => match stop with
    | none => false
    | some e => decide (t < e)
  | .after => match start with
    | none => false
    | some s => decide (s < t)
  | .between => match start, stop with
    | some s, some e => decide (s ≤ t) && decide (t ≤ e)
    | _, _ => true
  | _ => true

/-- The comparisons of `matches` need a timestamp. -/
def needsTimestamp (operator : TemporalOperator) (start stop : Option ℤ) : Bool :=
  match operator with
  | .before => stop.isSome
  | .after => start.isSome
  | .between => start.isSome && stop.isSome
  | _ => false

/-- The operator's verdict.  Without a timestamp a comparison raises. -/
def judge (operator : TemporalOperator) (start stop : Option ℤ) : Option Datetime → Except PyErr Bool
  | some ts => ts.normalizeTz.map (verdict operator start stop)
  | none => if needsTimestamp operator start stop then .error .typeError else .ok (verdict operator start stop 0)

/-- `TemporalFilter.matches`.  (What the code normalizes first makes no difference: the errors are the same.) -/
def TemporalFilter.matches (f : TemporalFilter) (now : Datetime) (timestamp : Option Datetime) :
    Except PyErr Bool := do
  let times ← f.bounds now
  judge f.operator times.1 times.2 timestamp

/-! ## Masks -/

/-- A verdict of the Python `batch_temporal_filter`. -/
def pyMask (operator : TemporalOperator) (start stop : Option ℚ) (ts : ℚ) : Bool :=
  match operator with
  | .before => stop.isNone || stop.any fun e => decide (ts < e)
  | .after => start.isNone || start.any fun s => decide (s < ts)
  | .between =>
      let afterStart := start.isNone || start.any fun s => decide (s ≤ ts)
      let beforeEnd := stop.isNone || stop.any fun e => decide (ts ≤ e)
      afterStart && beforeEnd
  | _ => true

/-- `Op` of the Rust backend. -/
inductive Op where
  | before
  | after
  | between
  | pass

/-- The operator of a string. -/
def parseOp : TemporalOperator → Op
  | .before => .before
  | .after => .after
  | .between => .between
  | _ => .pass

/-- `matches_op` -/
def matchesOp (op : Op) (start stop : Option ℚ) (ts : ℚ) : Bool :=
  match op with
  | .before => (stop.map fun e => decide (ts < e)).getD true
  | .after => (start.map fun s => decide (s < ts)).getD true
  | .between =>
      (start.map fun s => decide (s ≤ ts)).getD true && (stop.map fun e => decide (ts ≤ e)).getD true
  | .pass => true

def rustMask (operator : TemporalOperator) (start stop : Option ℚ) (ts : ℚ) : Bool :=
  matchesOp (parseOp operator) start stop ts

/-- The two masks are one. -/
theorem rustMask_eq_pyMask : rustMask = pyMask := by
  funext operator start stop ts
  cases operator <;> cases start <;> cases stop <;> rfl

/-! ## The batch -/

structure Chunk where
  sourceTimestamp : Option Datetime
  createdAt : Option Datetime

/-- `source_timestamp`, or else `created_at`. -/
def Chunk.timestamp (c : Chunk) : Option Datetime := c.sourceTimestamp.or c.createdAt

section Batch

variable {S : Type}

abbrev MaskFn := TemporalOperator → Option ℚ → Option ℚ → ℚ → Bool

/-- The epoch seconds of the chunks, up to one that has no date. -/
def timestamps : List (Chunk × S) → Except PyErr (Option (List ℚ))
  | [] => .ok (some [])
  | p :: rest => match p.1.timestamp with
    | none => .ok none
    | some d => do
        let us ← d.normalizeTz
        let ts ← timestamps rest
        return ts.map fun ts => dtToEpoch us :: ts

/-- `[(c, s) for c, s in chunks_and_scores if temporal_filter.matches(c.created_at)]` -/
def perItem (f : TemporalFilter) (now : Datetime) : List (Chunk × S) → Except PyErr (List (Chunk × S))
  | [] => .ok []
  | p :: rest => do
      let keep ← f.matches now p.1.createdAt
      let kept ← perItem f now rest
      return if keep then p :: kept else kept

/-- `batch_filter_chunks` -/
def batchFilterChunks (mask : MaskFn) (now : Datetime) (chunksAndScores : List (Chunk × S))
    (f : TemporalFilter) : Except PyErr (List (Chunk × S)) :=
  if chunksAndScores.isEmpty then .ok []
  else do
    let times ← f.bounds now
    match ← timestamps chunksAndScores with
    | none => perItem f now chunksAndScores
    | some ts =>
        let verdicts := ts.map (mask f.operator (times.1.map dtToEpoch) (times.2.map dtToEpoch))
        return ((chunksAndScores.zip verdicts).filter Prod.snd).map Prod.fst

/-- The batch keeps a sub-list, and among the chunks with a date the ones that `matches` holds of. -/
def FiltersAsMatches (f : TemporalFilter) (now : Datetime) (chunksAndScores : List (Chunk × S))
    (result : Except PyErr (List (Chunk × S))) : Prop :=
  ∃ kept, result = .ok kept ∧ kept.Sublist chunksAndScores ∧
    (kept.filter fun p => p.1.timestamp.isSome) = chunksAndScores.filter fun p =>
      p.1.timestamp.isSome && decide (f.matches now p.1.timestamp = .ok true)

/-- The mask and the comparison of dates agree on a timestamp. -/
def MaskAgrees (operator : TemporalOperator) (start stop : Option ℤ) (t : ℤ) : Prop :=
  match operator with
  | .before => ∃ e, stop = some e ∧ (t < e → dtToEpoch t ≠ dtToEpoch e)
  | .after => ∃ s, start = some s ∧ (s < t → dtToEpoch s ≠ dtToEpoch t)
  | .between => match start, stop with
    | none, none => True
    | some s, none => dtToEpoch s ≤ dtToEpoch t
    | none, some e => dtToEpoch t ≤ dtToEpoch e
    | some s, some e =>
        (t < s → dtToEpoch t ≤ dtToEpoch e → dtToEpoch s ≠ dtToEpoch t) ∧
          (e < t → dtToEpoch s ≤ dtToEpoch t → dtToEpoch t ≠ dtToEpoch e)
  | _ => True

/-- What has to hold of a batch with these bounds: if all chunks have dates, and if one has none. -/
def ChunksAgree (operator : TemporalOperator) (start stop : Option ℤ) (chunks : List Chunk) : Prop :=
  if ∀ c ∈ chunks, c.timestamp.isSome then
    ∀ c ∈ chunks, ∀ d, c.timestamp = some d → ∃ t, d.normalizeTz = .ok t ∧ MaskAgrees operator start stop t
  else
    (∀ c ∈ chunks.takeWhile (·.timestamp.isSome), ∀ d, c.timestamp = some d → ∃ t, d.normalizeTz = .ok t) ∧
      (∀ c ∈ chunks, c.createdAt = none → needsTimestamp operator start stop = false) ∧
      (∀ c ∈ chunks, ∀ d, c.createdAt = some d → ∃ t, d.normalizeTz = .ok t) ∧
      ∀ c ∈ chunks, ∀ d, c.sourceTimestamp = some d →
        (judge operator start stop c.createdAt = .ok true ↔ judge operator start stop (some d) = .ok true)

/-- What has to hold of a batch for the two ways to agree. -/
def BatchAgrees (f : TemporalFilter) (now : Datetime) (chunks : List Chunk) : Prop :=
  chunks = [] ∨ ∃ start stop, f.bounds now = .ok (start, stop) ∧ ChunksAgree f.operator start stop chunks

end Batch

/-! ## Where the mask agrees -/

theorem pyMask_before {start : Option ℤ} {e t : ℤ} :
    pyMask .before (start.map dtToEpoch) (some (dtToEpoch e)) (dtToEpoch t) = verdict .before start (some e) t ↔
      (t < e → dtToEpoch t ≠ dtToEpoch e) := by
  show (false || decide (dtToEpoch t < dtToEpoch e)) = decide (t < e) ↔ _
  rw [Bool.false_or, decide_eq_decide]
  constructor
  · intro h hlt heq
    exact absurd (h.mpr hlt) (by rw [heq]; exact lt_irrefl _)
  · intro h
    exact ⟨lt_of_dtToEpoch_lt, fun hlt => lt_of_le_of_ne (dtToEpoch_mono hlt.le) (h hlt)⟩

theorem pyMask_after {stop : Option ℤ} {s t : ℤ} :
    pyMask .after (some (dtToEpoch s)) (stop.map dtToEpoch) (dtToEpoch t) = verdict .after (some s) stop t ↔
      (s < t → dtToEpoch s ≠ dtToEpoch t) := by
  show (false || decide (dtToEpoch s < dtToEpoch t)) = decide (s < t) ↔ _
  rw [Bool.false_or, decide_eq_decide]
  constructor
  · intro h hlt heq
    exact absurd (h.mpr hlt) (by rw [heq]; exact lt_irrefl _)
  · intro h
    exact ⟨lt_of_dtToEpoch_lt, fun hlt => lt_of_le_of_ne (dtToEpoch_mono hlt.le) (h hlt)⟩

theorem pyMask_between {s e t : ℤ} :
    pyMask .between (some (dtToEpoch s)) (some (dtToEpoch e)) (dtToEpoch t) =
        verdict .between (some s) (some e) t ↔
      (t < s → dtToEpoch t ≤ dtToEpoch e → dtToEpoch s ≠ dtToEpoch t) ∧
        (e < t → dtToEpoch s ≤ dtToEpoch t → dtToEpoch t ≠ dtToEpoch e) := by
  show ((false || decide (dtToEpoch s ≤ dtToEpoch t)) && (false || decide (dtToEpoch t ≤ dtToEpoch e))) =
    (decide (s ≤ t) && decide (t ≤ e)) ↔ _
  rw [Bool.false_or, Bool.false_or, ← Bool.decide_and, ← Bool.decide_and, decide_eq_decide]
  constructor
  · intro h
    refine ⟨fun hlt hle heq => ?_, fun hlt hle heq => ?_⟩
    · exact absurd (h.mp ⟨heq.le, hle⟩).1 (not_le.mpr hlt)
    · exact absurd (h.mp ⟨hle, heq.le⟩).2 (not_le.mpr hlt)
  · rintro ⟨hstart, hstop⟩
    constructor
    · rintro ⟨hs, he⟩
      constructor
      · by_contra hlt
        have hts : t < s := not_le.mp hlt
        exact hstart hts he (le_antisymm hs (dtToEpoch_mono hts.le))
      · by_contra hlt
        have het : e < t := not_le.mp hlt
        exact hstop het hs (le_antisymm he (dtToEpoch_mono het.le))
    · rintro ⟨hs, he⟩
      exact ⟨dtToEpoch_mono hs, dtToEpoch_mono he⟩

/-- **One verdict of the mask.**  It is that of `matches` exactly if the bound of the operator is
there, the bound of half a range holds, and rounding does not merge two dates. -/
theorem pyMask_eq_verdict_iff (operator : TemporalOperator) (start stop : Option ℤ) (t : ℤ) :
    pyMask operator (start.map dtToEpoch) (stop.map dtToEpoch) (dtToEpoch t) = verdict operator start stop t ↔
      MaskAgrees operator start stop t := by
  cases operator with
  | before =>
      cases stop with
      | none =>
          constructor
          · intro h
            cases h
          · rintro ⟨_, h, -⟩
            cases h
      | some e =>
          refine pyMask_before.trans ⟨fun h => ⟨e, rfl, h⟩, ?_⟩
          rintro ⟨_, heq, h⟩
          cases heq
          exact h
  | after =>
      cases start with
      | none =>
          constructor
          · intro h
            cases h
          · rintro ⟨_, h, -⟩
            cases h
      | some s =>
          refine pyMask_after.trans ⟨fun h => ⟨s, rfl, h⟩, ?_⟩
          rintro ⟨_, heq, h⟩
          cases heq
          exact h
  | between =>
      cases start with
      | none =>
          cases stop with
          | none => exact ⟨fun _ => trivial, fun _ => rfl⟩
          | some e =>
              show (true && (false || decide (dtToEpoch t ≤ dtToEpoch e))) = true ↔ _
              rw [Bool.true_and, Bool.false_or, decide_eq_true_eq]
              rfl
      | some s =>
          cases stop with
          | none =>
              show ((false || decide (dtToEpoch s ≤ dtToEpoch t)) && true) = true ↔ _
              rw [Bool.and_true, Bool.false_or, decide_eq_true_eq]
              rfl
          | some e => exact pyMask_between
  | during => exact ⟨fun _ => trivial, fun _ => rfl⟩
  | overlaps => exact ⟨fun _ => trivial, fun _ => rfl⟩

/-! ## The two paths -/

section Paths

variable {S : Type} {f : TemporalFilter} {now : Datetime} {start stop : Option ℤ} {chunks : List (Chunk × S)}

/-- **The dates of the chunks**, if all have one: they are read if they are in the calendar. -/
theorem timestamps_dated (hdated : ∀ p ∈ chunks, p.1.timestamp.isSome = true) (mask : ℚ → Bool) :
    (∃ ts, timestamps chunks = .ok (some ts) ∧
      (∀ p ∈ chunks, ∀ d, p.1.timestamp = some d → ∃ t, d.normalizeTz = .ok t) ∧
      ((chunks.zip (ts.map mask)).filter Prod.snd).map Prod.fst = chunks.filter fun p => p.1.timestamp.any fun d =>
        (d.normalizeTz.map fun t => mask (dtToEpoch t)).toOption.getD false) ∨
    ((∃ e, timestamps chunks = .error e) ∧
      ∃ p ∈ chunks, ∃ d, p.1.timestamp = some d ∧ ¬∃ t, d.normalizeTz = .ok t) := by
  induction chunks with
  | nil => exact .inl ⟨[], rfl, fun _ h => absurd h List.not_mem_nil, rfl⟩
  | cons p chunks ih =>
      rw [List.forall_mem_cons] at hdated
      obtain ⟨d, hd⟩ := Option.isSome_iff_exists.mp hdated.1
      rw [timestamps, hd]
      simp only
      cases hnorm : d.normalizeTz with
      | error e =>
          refine .inr ⟨⟨e, rfl⟩, p, List.mem_cons_self, d, hd, ?_⟩
          rintro ⟨t, ht⟩
          rw [hnorm] at ht
          cases ht
      | ok us =>
          rcases ih hdated.2 with ⟨ts, hts, hall, hzip⟩ | ⟨⟨e, hts⟩, q, hq, hbad⟩
          · rw [hts]
            refine .inl ⟨dtToEpoch us :: ts, rfl, ?_, ?_⟩
            · rw [List.forall_mem_cons, hd]
              exact ⟨fun d' hd' => ⟨us, Option.some.inj hd' ▸ hnorm⟩, hall⟩
            · have hone : (p.1.timestamp.any fun d =>
                  (d.normalizeTz.map fun t => mask (dtToEpoch t)).toOption.getD false) = mask (dtToEpoch us) := by
                rw [hd, Option.any_some, hnorm]
                rfl
              rw [List.map_cons, List.zip_cons_cons, List.filter_cons, List.filter_cons, hone]
              cases mask (dtToEpoch us) with
              | false => exact hzip
              | true =>
                  rw [if_pos rfl, if_pos rfl, List.map_cons]
                  exact congrArg (p :: ·) hzip
          · rw [hts]
            exact .inr ⟨⟨e, rfl⟩, q, List.mem_cons_of_mem _ hq, hbad⟩

/-- A chunk without dates ends the reading; what comes before it is read. -/
theorem timestamps_undated (hundated : ∃ p ∈ chunks, p.1.timestamp.isSome = false) :
    (∃ r, timestamps chunks = .ok r ∧ r = none) ∧
        (∀ c ∈ (chunks.map Prod.fst).takeWhile (·.timestamp.isSome), ∀ d, c.timestamp = some d →
          ∃ t, d.normalizeTz = .ok t) ∨
      (∃ e, timestamps chunks = .error e) ∧
        ¬∀ c ∈ (chunks.map Prod.fst).takeWhile (·.timestamp.isSome), ∀ d, c.timestamp = some d →
          ∃ t, d.normalizeTz = .ok t := by
  induction chunks with
  | nil =>
      obtain ⟨p, hp, -⟩ := hundated
      cases hp
  | cons p chunks ih =>
      rw [timestamps, List.map_cons]
      cases hp : p.1.timestamp with
      | none =>
          rw [List.takeWhile_cons_of_neg (by simp [hp])]
          exact .inl ⟨⟨none, rfl, rfl⟩, fun _ h => absurd h List.not_mem_nil⟩
      | some d =>
          have hrest : ∃ q ∈ chunks, q.1.timestamp.isSome = false := by
            obtain ⟨q, hq, hnone⟩ := hundated
            rcases List.mem_cons.mp hq with rfl | hq
            · rw [hp] at hnone
              cases hnone
            · exact ⟨q, hq, hnone⟩
          rw [List.takeWhile_cons_of_pos (by simp [hp]), List.forall_mem_cons]
          simp only [hp, Option.some.injEq, forall_eq']
          cases hnorm : d.normalizeTz with
          | error e =>
              refine .inr ⟨⟨e, rfl⟩, ?_⟩
              rintro ⟨⟨t, ht⟩, -⟩
              cases ht
          | ok us =>
              rcases ih hrest with ⟨⟨r, hr, rfl⟩, hall⟩ | ⟨⟨e, hr⟩, hbad⟩
              · rw [hr]
                exact .inl ⟨⟨none, rfl, rfl⟩, ⟨us, rfl⟩, hall⟩
              · rw [hr]
                exact .inr ⟨⟨e, rfl⟩, fun h => hbad h.2⟩

theorem matches_of_bounds (hbounds : f.bounds now = .ok (start, stop)) (timestamp : Option Datetime) :
    f.matches now timestamp = judge f.operator start stop timestamp := by
  rw [TemporalFilter.matches, hbounds]
  rfl

/-- **The fallback** raises exactly if it does at a chunk, and otherwise filters by `created_at`. -/
theorem fallback_spec (hbounds : f.bounds now = .ok (start, stop)) (kept : List (Chunk × S)) :
    perItem f now chunks = .ok kept ↔
      (∀ p ∈ chunks, ∃ keep, judge f.operator start stop p.1.createdAt = .ok keep) ∧
        kept = chunks.filter fun p => decide (judge f.operator start stop p.1.createdAt = .ok true) := by
  induction chunks generalizing kept with
  | nil =>
      rw [perItem, List.filter_nil, Except.ok.injEq, eq_comm]
      exact (and_iff_right (List.forall_mem_nil _)).symm
  | cons p chunks ih =>
      rw [perItem, matches_of_bounds hbounds, List.forall_mem_cons]
      cases hp : judge f.operator start stop p.1.createdAt with
      | error e =>
          constructor
          · intro h
            cases h
          · rintro ⟨⟨⟨keep, h⟩, -⟩, -⟩
            cases h
      | ok keep =>
          cases hrest : perItem f now chunks with
          | error e =>
              constructor
              · intro h
                cases h
              · rintro ⟨⟨-, hall⟩, -⟩
                rw [(ih _).mpr ⟨hall, rfl⟩] at hrest
                cases hrest
          | ok rest =>
              obtain ⟨hall, rfl⟩ := (ih rest).mp hrest
              rw [List.filter_cons, hp]
              show Except.ok _ = Except.ok kept ↔ _
              rw [Except.ok.injEq, eq_comm]
              refine ⟨fun h => ⟨⟨⟨keep, rfl⟩, hall⟩, h.trans ?_⟩, fun h => h.2.trans ?_⟩
              · cases keep <;> rfl
              · cases keep <;> rfl

theorem filter_eq_filter_iff {X : Type} {l : List X} {p q : X → Bool} :
    l.filter p = l.filter q ↔ ∀ x ∈ l, p x = q x := by
  constructor
  · intro h x hx
    rw [Bool.eq_iff_iff]
    constructor
    · intro hp
      exact List.of_mem_filter (h ▸ List.mem_filter.mpr ⟨hx, hp⟩ : x ∈ l.filter q)
    · intro hq
      exact List.of_mem_filter (h ▸ List.mem_filter.mpr ⟨hx, hq⟩ : x ∈ l.filter p)
  · exact List.filter_congr

/-- What a filtered batch has to satisfy. -/
theorem filtersAsMatches_filter (hbounds : f.bounds now = .ok (start, stop)) {keep : Chunk × S → Bool} :
    FiltersAsMatches f now chunks (.ok (chunks.filter keep)) ↔
      ∀ p ∈ chunks, ∀ d, p.1.timestamp = some d →
        (keep p = true ↔ judge f.operator start stop (some d) = .ok true) := by
  have hiff : FiltersAsMatches f now chunks (.ok (chunks.filter keep)) ↔
      ∀ p ∈ chunks, (p.1.timestamp.isSome && keep p) =
        (p.1.timestamp.isSome && decide (f.matches now p.1.timestamp = .ok true)) := by
    rw [← filter_eq_filter_iff, ← List.filter_filter]
    constructor
    · rintro ⟨kept, hkept, -, heq⟩
      cases hkept
      exact heq
    · intro heq
      exact ⟨_, rfl, List.filter_sublist, heq⟩
  rw [hiff]
  refine forall₂_congr fun p _ => ?_
  cases hp : p.1.timestamp with
  | none => simp
  | some d =>
      rw [matches_of_bounds hbounds]
      simp only [Option.isSome_some, Bool.true_and, Option.some.injEq, forall_eq']
      rw [Bool.eq_iff_iff, decide_eq_true_iff]

theorem judge_eq_ok_true {operator : TemporalOperator} {d : Datetime} {t : ℤ} (hnorm : d.normalizeTz = .ok t) :
    judge operator start stop (some d) = .ok true ↔ verdict operator start stop t = true := by
  rw [judge, hnorm]
  show Except.ok _ = Except.ok true ↔ _
  rw [Except.ok.injEq]

/-- A batch whose chunks all have dates goes through the mask. -/
theorem masked_iff (hbounds : f.bounds now = .ok (start, stop)) (hne : chunks ≠ [])
    (hdated : ∀ p ∈ chunks, p.1.timestamp.isSome = true) :
    FiltersAsMatches f now chunks (batchFilterChunks pyMask now chunks f) ↔
      ∀ p ∈ chunks, ∀ d, p.1.timestamp = some d →
        ∃ t, d.normalizeTz = .ok t ∧ MaskAgrees f.operator start stop t := by
  rw [batchFilterChunks, if_neg (fun h => hne (List.isEmpty_iff.mp h)), hbounds]
  rcases timestamps_dated hdated (pyMask f.operator (start.map dtToEpoch) (stop.map dtToEpoch)) with
    ⟨ts, hts, hall, hzip⟩ | ⟨⟨e, hts⟩, p, hp, d, hd, hbad⟩
  · rw [hts]
    show FiltersAsMatches f now chunks (.ok _) ↔ _
    rw [hzip, filtersAsMatches_filter hbounds]
    refine forall₂_congr fun p hp => forall₂_congr fun d hd => ?_
    obtain ⟨t, ht⟩ := hall p hp d hd
    rw [hd, Option.any_some, judge_eq_ok_true ht, ht]
    show (pyMask _ _ _ _ = true ↔ _) ↔ _
    rw [← Bool.eq_iff_iff, pyMask_eq_verdict_iff]
    simp
  · rw [hts]
    constructor
    · rintro ⟨kept, hkept, -⟩
      cases hkept
    · intro h
      obtain ⟨t, ht, -⟩ := h p hp d hd
      exact absurd ⟨t, ht⟩ hbad

/-- A chunk is judged by its `created_at`, if that is in the calendar, or not needed. -/
theorem judge_createdAt_iff {operator : TemporalOperator} {c : Chunk} :
    (∃ keep, judge operator start stop c.createdAt = .ok keep) ↔
      (c.createdAt = none → needsTimestamp operator start stop = false) ∧
        ∀ d, c.createdAt = some d → ∃ t, d.normalizeTz = .ok t := by
  cases hc : c.createdAt with
  | none =>
      rw [judge]
      cases needsTimestamp operator start stop with
      | false => simp
      | true => simp
  | some d =>
      rw [judge]
      cases hnorm : d.normalizeTz with
      | error e => simp [Except.map, hnorm]
      | ok t => simp [Except.map, hnorm]

/-- A chunk without dates switches the batch to the other path. -/
theorem unmasked_iff (hbounds : f.bounds now = .ok (start, stop))
    (hundated : ∃ p ∈ chunks, p.1.timestamp.isSome = false) :
    FiltersAsMatches f now chunks (batchFilterChunks pyMask now chunks f) ↔
      (∀ c ∈ (chunks.map Prod.fst).takeWhile (·.timestamp.isSome), ∀ d, c.timestamp = some d →
        ∃ t, d.normalizeTz = .ok t) ∧
      (∀ p ∈ chunks, ∃ keep, judge f.operator start stop p.1.createdAt = .ok keep) ∧
      ∀ p ∈ chunks, ∀ d, p.1.sourceTimestamp = some d →
        (judge f.operator start stop p.1.createdAt = .ok true ↔ judge f.operator start stop (some d) = .ok true) := by
  have hne : ¬ chunks.isEmpty = true := by
    obtain ⟨p, hp, -⟩ := hundated
    rw [List.isEmpty_iff]
    exact List.ne_nil_of_mem hp
  rw [batchFilterChunks, if_neg hne, hbounds]
  rcases timestamps_undated hundated with ⟨⟨_, hts, rfl⟩, hall⟩ | ⟨⟨e, hts⟩, hbad⟩
  · rw [hts]
    show FiltersAsMatches f now chunks (perItem f now chunks) ↔ _
    refine Iff.trans ?_ (and_iff_right hall).symm
    by_cases hjudged : ∀ p ∈ chunks, ∃ keep, judge f.operator start stop p.1.createdAt = .ok keep
    · rw [(fallback_spec hbounds _).mpr ⟨hjudged, rfl⟩, filtersAsMatches_filter hbounds]
      refine Iff.trans ?_ (and_iff_right hjudged).symm
      refine forall₂_congr fun p _ => ?_
      rw [decide_eq_true_iff, Chunk.timestamp]
      cases hs : p.1.sourceTimestamp with
      | some d => simp
      | none =>
          -- without a source timestamp both read `created_at`
          refine iff_of_true (fun d hd => ?_) fun d hd => by cases hd
          rw [Option.none_or] at hd
          rw [hd]
    · constructor
      · rintro ⟨kept, hkept, -⟩
        exact absurd ((fallback_spec hbounds kept).mp hkept).1 hjudged
      · exact fun h => absurd h.1 hjudged
  · rw [hts]
    constructor
    · rintro ⟨kept, hkept, -⟩
      cases hkept
    · exact fun h => absurd h.1 hbad

end Paths

/-! ## The exact extent -/

/-- **Batched and per-item filtering.**  On either backend of the mask the batch filters as `matches`
does exactly if the bounds are in the calendar and: with dates on all chunks, these are in the calendar,
the bound of the operator is there, every chunk meets the bound of half a range, and rounding to seconds
merges no two dates the operator tells apart; with a chunk without dates, the dates that are read are in
the calendar, no comparison meets a chunk without `created_at`, and `created_at` has the verdict of the
source timestamp. -/
theorem batch_eq_perItem_iff {S : Type} (f : TemporalFilter) (now : Datetime)
    (chunksAndScores : List (Chunk × S)) :
    (FiltersAsMatches f now chunksAndScores (batchFilterChunks pyMask now chunksAndScores f) ∧
      FiltersAsMatches f now chunksAndScores (batchFilterChunks rustMask now chunksAndScores f)) ↔
    BatchAgrees f now (chunksAndScores.map Prod.fst) := by
  rw [rustMask_eq_pyMask, and_self]
  unfold BatchAgrees
  rw [List.map_eq_nil_iff]
  by_cases hempty : chunksAndScores = []
  · rw [hempty]
    exact iff_of_true ⟨[], rfl, List.Sublist.refl _, rfl⟩ (.inl rfl)
  rw [or_iff_right hempty]
  cases hbounds : f.bounds now with
  | error e =>
      rw [batchFilterChunks, if_neg (fun h => hempty (List.isEmpty_iff.mp h)), hbounds]
      constructor
      · rintro ⟨kept, hkept, -⟩
        cases hkept
      · rintro ⟨start, stop, h, -⟩
        cases h
  | ok times =>
      obtain ⟨start, stop⟩ := times
      simp only [Except.ok.injEq, Prod.mk.injEq, exists_and_left, exists_eq_left', and_assoc]
      unfold ChunksAgree
      simp only [List.forall_mem_map]
      by_cases hdated : ∀ p ∈ chunksAndScores, p.1.timestamp.isSome = true
      · rw [if_pos hdated]
        exact masked_iff hbounds hempty hdated
      · rw [if_neg hdated]
        have hundated : ∃ p ∈ chunksAndScores, p.1.timestamp.isSome = false := by
          simpa using hdated
        rw [unmasked_iff hbounds hundated]
        simp only [judge_createdAt_iff, forall_and, and_assoc]

/-! ## Where they differ -/

/-- The first hour of the calendar, east of Greenwich, is before the calendar in UTC. -/
example : batchFilterChunks (S := ℕ) pyMask ⟨0, some 0⟩ [(⟨none, some ⟨minMicros, some microsPerHour⟩⟩, 1)]
    (.init .during none none none none none none) = .error .overflowError := rfl

/-- **A filter without its bound**: `matches` never holds, and the mask always does. -/
theorem openEnd_diverges : ¬ ∀ (f : TemporalFilter) (now : Datetime) (chunks : List (Chunk × ℚ)),
    FiltersAsMatches f now chunks (batchFilterChunks pyMask now chunks f) := by
  intro h
  obtain ⟨kept, hkept, -, heq⟩ := h (.init .before none none none none none none) ⟨0, none⟩
    [(⟨none, some ⟨0, none⟩⟩, 1)]
  have hall : kept = [(⟨none, some ⟨0, none⟩⟩, 1)] := by
    cases hkept
    rfl
  rw [hall] at heq
  exact absurd (congrArg List.length heq) (by decide)

end BatchTemporal

end Khora
