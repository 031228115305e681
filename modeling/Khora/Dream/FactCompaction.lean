import Khora.Lib.IsoText
import Khora.Lib.Table

/-!
# Fact compaction

The planner of `chronicle/fact_compaction.py` selects the tombstoned rows of `memory_facts` by one marker, and the
handler deletes them for good, after it has copied them into the undo record.

* `columnText_lt_isoformat_iff` — a stored text against an ISO bound: only the days are compared.
* `candidate_iff` — what each dialect selects.
* `apply_planned` — the handler deletes the row of the op, if it is there, and records all of it.
* `compaction_exact` — the tables of which exactly the rows past the retention period are planned.
-/

namespace Khora

namespace FactCompaction

open Calendar

/-! ## The table -/

/-- A date-time in UTC, as the columns and the clock have it. -/
abbrev Utc := { d : DateTime // d.offset = some 0 }

def Utc.instant (t : Utc) : ℤ := t.val.instant

inductive Dialect where
  | postgresql
  | sqlite
deriving DecidableEq

/-- A row of `memory_facts`. -/
structure FactRow (Id N : Type) where
  id : Id
  namespaceId : Id
  subject : String
  predicate : String
  object : String
  factText : String
  confidence : N
  isActive : Bool
  supersededBy : Option Id
  sourceChunkIds : List Id
  sessionId : Option Id
  validTo : Option Utc
  invalidatedAt : Option Utc
  invalidatedBy : Option Id
  createdAt : Option Utc
  updatedAt : Option Utc

/-- The table, by its primary key. -/
abbrev FactTable (Id N : Type) := Table Id (FactRow Id N) FactRow.id

variable {Id N : Type} [DecidableEq Id]

namespace FactRow

variable (r : FactRow Id N)

/-- `NOT is_active OR invalidated_at IS NOT NULL` -/
def tombstoned : Bool := !r.isActive || r.invalidatedAt.isSome

/-- `COALESCE(invalidated_at, updated_at)` -/
def markerAt : Option Utc := r.invalidatedAt.or r.updatedAt

end FactRow

/-! ## The planner -/

/-- What SQLAlchemy stores in a SQLite `DATETIME`: a space between date and time, no offset. -/
def columnText (d : DateTime) : String :=
  String.ofList (d.dateChars ++ (' ' :: (d.timeChars ++ ('.' :: pad 6 d.micro))))

/-- `marker < :threshold`. SQLite has the column's text and the text of `threshold.isoformat()`. -/
def markerBefore (dialect : Dialect) (marker threshold : Utc) : Bool :=
  match dialect with
  | .postgresql => marker.instant < threshold.instant
  | .sqlite => columnText marker.val < threshold.val.isoformat

/-- `ORDER BY marker_at ASC` -/
def markerLe (dialect : Dialect) (a b : FactRow Id N) : Bool :=
  match dialect, a.markerAt, b.markerAt with
  | .postgresql, some s, some t => s.instant ≤ t.instant
  | .sqlite, some s, some t => columnText s.val ≤ columnText t.val
  | _, none, _ => true
  | _, some _, none => false

def candidate (dialect : Dialect) (ns : Id) (threshold : Utc) (r : FactRow Id N) : Bool :=
  r.namespaceId = ns && r.tombstoned && r.markerAt.any fun m => markerBefore dialect m threshold

/-- `_select_candidates` -/
def selectCandidates (dialect : Dialect) (ns : Id) (threshold : Utc) (table : FactTable Id N) :
    List (FactRow Id N) :=
  (table.rows.filter (candidate dialect ns threshold)).mergeSort (markerLe dialect)

/-- The op types; another type is kept as its `repr`. -/
inductive OpKind where
  | chronicleFactCompaction
  | other (repr : String)
deriving DecidableEq

/-- An entry of `DreamOp.inputs`; the two keys that the handler looks for may be missing. -/
structure OpInput (Id : Type) where
  factId : Option Id
  subject : String
  predicate : String
  object : String
  supersededBy : Option Id
  retentionDays : Option ℤ

structure DreamOp (Id : Type) where
  opId : Id
  opType : OpKind
  inputs : List (OpInput Id)
  namespaceId : Id

/-- The instant `retention_days` before `now`. -/
def cutoff (now : Utc) (days : ℕ) : ℤ := now.instant - days * microsPerDay

/-- `started_at - timedelta(days=retention_days)`; `none` is the `OverflowError` below year 1. -/
def threshold? (now : Utc) (days : ℕ) : Option Utc :=
  match DateTime.ofWall? (cutoff now days) with
  | some d => if h : d.offset = some 0 then some ⟨d, h⟩ else none
  | none => none

section Plan

-- `opIdOf` is the `uuid4()` drawn for the op of a row
variable (opIdOf : Id → Id)

def planOp (ns : Id) (days : ℕ) (r : FactRow Id N) : DreamOp Id where
  opId := opIdOf r.id
  opType := .chronicleFactCompaction
  inputs := [{ factId := some r.id, subject := r.subject, predicate := r.predicate, object := r.object,
               supersededBy := r.supersededBy, retentionDays := some days }]
  namespaceId := ns

/-- `plan_chronicle_fact_compaction`; `none` when the threshold cannot be computed. -/
def plan (dialect : Dialect) (ns : Id) (now : Utc) (days : ℕ) (table : FactTable Id N) :
    Option (List (DreamOp Id)) :=
  (threshold? now days).map fun threshold =>
    (selectCandidates dialect ns threshold table).map (planOp opIdOf ns days)

end Plan

/-! ## The handler -/

/-- What the driver returns for a column. -/
inductive SqlValue (Id N : Type) where
  | null
  | uuid (i : Id)
  | text (s : String)
  | number (n : N)
  | int (n : ℤ)
  | bool (b : Bool)
  | time (t : Utc)
  | uuids (l : List Id)

/-- A value of the undo record. -/
inductive JsonValue (N : Type) where
  | null
  | text (s : String)
  | number (n : N)
  | int (n : ℤ)
  | bool (b : Bool)
  | texts (l : List String)

/-- The texts of identifiers: `str(id)`, `id.hex`, and the SQLite text of a list column. -/
structure IdTexts (Id : Type) where
  str : Id → String
  hex : Id → String
  list : List Id → String

section Handler

variable (texts : IdTexts Id)

/-- `_jsonable` -/
def jsonable : SqlValue Id N → JsonValue N
  | .null => .null
  | .uuid i => .text (texts.str i)
  | .text s => .text s
  | .number n => .number n
  | .int n => .int n
  | .bool b => .bool b
  | .time t => .text t.val.isoformat
  | .uuids l => .texts (l.map texts.str)

/-- An identifier, a flag, a time and a list as the dialect's driver returns them. -/
def uuidValue (dialect : Dialect) (i : Id) : SqlValue Id N :=
  match dialect with
  | .postgresql => .uuid i
  | .sqlite => .text (texts.hex i)

def boolValue (dialect : Dialect) (b : Bool) : SqlValue Id N :=
  match dialect with
  | .postgresql => .bool b
  | .sqlite => .int (if b then 1 else 0)

def timeValue (dialect : Dialect) (t : Utc) : SqlValue Id N :=
  match dialect with
  | .postgresql => .time t
  | .sqlite => .text (columnText t.val)

def listValue (dialect : Dialect) (l : List Id) : SqlValue Id N :=
  match dialect with
  | .postgresql => .uuids l
  | .sqlite => .text (texts.list l)

def nullable {α : Type} (f : α → SqlValue Id N) : Option α → SqlValue Id N
  | some a => f a
  | none => .null

/-- `SELECT *` -/
def columns (dialect : Dialect) (r : FactRow Id N) : List (String × SqlValue Id N) :=
  [("id", uuidValue texts dialect r.id),
   ("namespace_id", uuidValue texts dialect r.namespaceId),
   ("subject", .text r.subject),
   ("predicate", .text r.predicate),
   ("object", .text r.object),
   ("fact_text", .text r.factText),
   ("confidence", .number r.confidence),
   ("is_active", boolValue dialect r.isActive),
   ("superseded_by", nullable (uuidValue texts dialect) r.supersededBy),
   ("source_chunk_ids", listValue texts dialect r.sourceChunkIds),
   ("created_at", nullable (timeValue dialect) r.createdAt),
   ("updated_at", nullable (timeValue dialect) r.updatedAt),
   ("session_id", nullable (uuidValue texts dialect) r.sessionId),
   ("valid_to", nullable (timeValue dialect) r.validTo),
   ("invalidated_at", nullable (timeValue dialect) r.invalidatedAt),
   ("invalidated_by", nullable (uuidValue texts dialect) r.invalidatedBy)]

abbrev RowSnapshot (N : Type) := List (String × JsonValue N)

/-- `{k: _jsonable(v) for k, v in dict(row).items()}` -/
def snapshot (dialect : Dialect) (r : FactRow Id N) : RowSnapshot N :=
  (columns texts dialect r).map fun (name, value) => (name, jsonable texts value)

/-- `_snapshot_row` -/
def snapshotRow (dialect : Dialect) (table : FactTable Id N) (i : Id) : Option (RowSnapshot N) :=
  (table.rows.find? fun r => r.id = i).map (snapshot texts dialect)

/-- `ON DELETE SET NULL` of `superseded_by`. -/
def FactRow.unlink (ids : List Id) (r : FactRow Id N) : FactRow Id N :=
  { r with supersededBy := r.supersededBy.filter (· ∉ ids) }

theorem ids_map_unlink (ids : List Id) (rows : List (FactRow Id N)) :
    (rows.map (FactRow.unlink ids)).map FactRow.id = rows.map FactRow.id := by
  rw [List.map_map]
  rfl

/-- `_delete_rows` -/
def deleteRows (table : FactTable Id N) (ids : List Id) : FactTable Id N where
  rows := (table.rows.filter fun r => r.id ∉ ids).map (FactRow.unlink ids)
  nodup := by
    rw [ids_map_unlink]
    exact table.nodup.sublist (List.filter_sublist.map _)

/-- `UndoRecord`, with its `before` dict. -/
structure UndoRecord (Id N : Type) where
  opId : Id
  rows : List (String × RowSnapshot N)
  retentionDays : ℤ

def retentionFloorDays : ℤ := 7

/-- `_extract_retention_days` -/
def extractRetentionDays (op : DreamOp Id) : Except String ℤ :=
  match op.inputs.findSome? (·.retentionDays) with
  | some n => .ok n
  | none =>
      .error ("fact_compaction op " ++ texts.str op.opId ++ " is missing retention_days in inputs; " ++
        "the apply handler refuses to assume a default.")

/-- `_extract_target_ids` -/
def extractTargetIds (op : DreamOp Id) : List Id := op.inputs.filterMap (·.factId)

/-- `apply_chronicle_fact_compaction` -/
def applyFactCompaction (dialect : Dialect) (op : DreamOp Id) (table : FactTable Id N) :
    Except String (FactTable Id N × UndoRecord Id N) := do
  if let .other repr := op.opType then
    throw ("apply_chronicle_fact_compaction received op_type=" ++ repr ++ "; expected CHRONICLE_FACT_COMPACTION.")
  let retentionDays ← extractRetentionDays texts op
  if retentionDays < retentionFloorDays then
    throw ("fact_compaction retention_days must be >= 7, got " ++ toString retentionDays ++
      ". The hard floor exists to prevent accidental " ++
      "data loss; refusing to apply even when DreamConfig validation was bypassed.")
  let snapshots := (extractTargetIds op).filterMap fun i =>
    (snapshotRow texts dialect table i).map fun row => (i, row)
  let table' := if snapshots = [] then table else deleteRows table (snapshots.map Prod.fst)
  return (table', ⟨op.opId, snapshots.map fun (i, row) => (texts.str i, row), retentionDays⟩)

end Handler

/-! ## What is selected -/

theorem dateChars_lt_iff (a b : DateTime) :
    a.dateChars < b.dateChars ↔ ordinal a.year a.month a.day < ordinal b.year b.month b.day := by
  have hlen : ∀ (k n m : Nat), (pad k n).length = (pad k m).length := by simp
  have hpad : ∀ {k n m : Nat}, n < 10 ^ k → m < 10 ^ k → (pad k n = pad k m ↔ n = m) :=
    fun hn hm => ⟨pad_injective hn hm, fun h => by rw [h]⟩
  rw [ordinal_lt_ordinal a.date_valid b.date_valid]
  simp only [DateTime.dateChars, append_lt_append_iff (hlen _ _ _), List.cons_lt_cons_iff, lt_irrefl, false_or,
    true_and, pad_lt_iff a.year_lt b.year_lt, pad_lt_iff a.month_lt b.month_lt, pad_lt_iff a.day_lt b.day_lt,
    hpad a.year_lt b.year_lt, hpad a.month_lt b.month_lt]

theorem dateChars_eq_iff (a b : DateTime) :
    a.dateChars = b.dateChars ↔ ordinal a.year a.month a.day = ordinal b.year b.month b.day := by
  constructor
  · intro h
    obtain ⟨hy, hm, hd⟩ := DateTime.dateChars_inj h
    rw [hy, hm, hd]
  · intro h
    obtain ⟨hy, hm, hd⟩ := ordinal_inj a.date_valid b.date_valid h
    simp only [DateTime.dateChars, hy, hm, hd]

/-- **Against an ISO text, a stored text compares by the day alone.** The space of the one sorts before the `T` of
the other, so on one day the stored text always is the smaller. -/
theorem columnText_lt_isoformat_iff (m t : DateTime) :
    columnText m < t.isoformat ↔ ordinal m.year m.month m.day ≤ ordinal t.year t.month t.day := by
  rw [String.lt_iff_toList_lt, columnText, DateTime.isoformat]
  simp only [String.toList_ofList, DateTime.isoChars]
  rw [append_lt_append_iff (by simp), dateChars_lt_iff, dateChars_eq_iff, le_iff_lt_or_eq]
  have hsep : ∀ x y : List Char, (' ' :: x) < ('T' :: y) :=
    fun x y => List.cons_lt_cons_iff.mpr (Or.inl (by decide))
  simp only [hsep, and_true]

theorem Utc.instant_eq_wall (t : Utc) : t.instant = t.val.wall := by
  simp [Utc.instant, DateTime.instant, t.property]

/-- The number of the day of an instant. -/
def dayOf (t : ℤ) : ℤ := t / microsPerDay

theorem dayOf_instant (t : Utc) :
    dayOf t.instant = ordinal t.val.year t.val.month t.val.day - 1 := by
  have h1 := t.val.one_le_ordinal
  have h2 := t.val.timeOfDay_lt
  rw [Utc.instant_eq_wall]
  unfold dayOf DateTime.wall
  unfold microsPerDay microsPerSecond at *
  omega

theorem dayOf_mono {s t : ℤ} (h : s ≤ t) : dayOf s ≤ dayOf t :=
  Int.ediv_le_ediv (by decide) h

/-- What the comparison of a dialect says of two instants. -/
def Before (dialect : Dialect) (s t : ℤ) : Prop :=
  match dialect with
  | .postgresql => s < t
  | .sqlite => dayOf s ≤ dayOf t

theorem markerBefore_iff (dialect : Dialect) (m t : Utc) :
    markerBefore dialect m t = true ↔ Before dialect m.instant t.instant := by
  cases dialect with
  | postgresql => simp [markerBefore, Before]
  | sqlite =>
      simp only [markerBefore, Before, decide_eq_true_eq, columnText_lt_isoformat_iff, dayOf_instant]
      omega

/-- The comparison of either dialect is right off the day of the bound. -/
theorem before_of_lt {dialect : Dialect} {s t : ℤ} (h : s < t) : Before dialect s t := by
  cases dialect with
  | postgresql => exact h
  | sqlite => exact dayOf_mono h.le

theorem threshold?_eq_some {now t : Utc} {days : ℕ} (h : threshold? now days = some t) :
    t.instant = cutoff now days := by
  unfold threshold? at h
  by_cases hc : 0 ≤ cutoff now days ∧ cutoff now days < DateTime.maxWall
  · obtain ⟨d, hd, hw, ho⟩ := DateTime.ofWall?_spec hc.1 hc.2
    simp only [hd, ho, dite_true, Option.some.injEq] at h
    rw [← h, Utc.instant_eq_wall]
    exact hw
  · have hn : DateTime.ofWall? (cutoff now days) = none := if_pos (by omega)
    simp [hn] at h

theorem threshold?_eq_none {now : Utc} {days : ℕ} (h : threshold? now days = none) : cutoff now days < 0 := by
  by_contra hn
  have hlt : cutoff now days < DateTime.maxWall := by
    have := now.val.wall_lt_maxWall
    have := now.instant_eq_wall
    have : (0 : ℤ) ≤ days * microsPerDay := mul_nonneg (Int.natCast_nonneg _) (Int.natCast_nonneg _)
    unfold cutoff
    omega
  obtain ⟨d, hd, -, ho⟩ := DateTime.ofWall?_spec (not_lt.mp hn) hlt
  simp [threshold?, hd, ho] at h

theorem Utc.instant_nonneg (t : Utc) : 0 ≤ t.instant := by
  rw [Utc.instant_eq_wall]
  exact Int.natCast_nonneg _

/-- No marker is before a bound below year 1. -/
theorem not_before_of_neg {dialect : Dialect} {t : Utc} {c : ℤ} (hc : c < 0) : ¬ Before dialect t.instant c := by
  have ht := t.instant_nonneg
  cases dialect with
  | postgresql => exact not_lt.mpr (by omega)
  | sqlite =>
      have h1 : 0 ≤ dayOf t.instant := Int.ediv_nonneg ht (by decide)
      have h2 : dayOf c < 0 := Int.ediv_neg_of_neg_of_pos hc (by decide)
      exact not_le.mpr (lt_of_lt_of_le h2 h1)

/-- The tombstoned rows whose coalesced marker is before the bound, as the dialect compares. -/
def Selected (dialect : Dialect) (now : Utc) (days : ℕ) (r : FactRow Id N) : Prop :=
  r.tombstoned = true ∧ ∃ m, r.markerAt = some m ∧ Before dialect m.instant (cutoff now days)

theorem candidate_iff {dialect : Dialect} {ns : Id} {now t : Utc} {days : ℕ} (h : threshold? now days = some t)
    (r : FactRow Id N) : candidate dialect ns t r = true ↔ r.namespaceId = ns ∧ Selected dialect now days r := by
  simp only [candidate, Bool.and_eq_true, decide_eq_true_eq, Option.any_eq_true, markerBefore_iff,
    threshold?_eq_some h, Selected, and_assoc]

/-! ## What is planned -/

section Planned

variable (opIdOf : Id → Id) (dialect : Dialect) (ns : Id) (now : Utc) (days : ℕ) (table : FactTable Id N)

/-- The ops of the plan; there is none when the planner raises. -/
def plannedOps : List (DreamOp Id) := (plan opIdOf dialect ns now days table).getD []

/-- An op of the plan names the row. -/
def Planned (r : FactRow Id N) : Prop :=
  ∃ op ∈ plannedOps opIdOf dialect ns now days table, r.id ∈ extractTargetIds op

variable {opIdOf dialect ns now days table}

theorem mem_plannedOps {op : DreamOp Id} : op ∈ plannedOps opIdOf dialect ns now days table ↔
    ∃ r ∈ table.rows, (r.namespaceId = ns ∧ Selected dialect now days r) ∧ planOp opIdOf ns days r = op := by
  unfold plannedOps plan
  cases ht : threshold? now days with
  | none =>
      have hneg := threshold?_eq_none ht
      simp only [Option.map_none, Option.getD_none, List.not_mem_nil, false_iff]
      rintro ⟨r, -, ⟨-, -, m, -, hm⟩, -⟩
      exact not_before_of_neg hneg hm
  | some t =>
      simp only [Option.map_some, Option.getD_some, selectCandidates, List.mem_map, List.mem_mergeSort,
        List.mem_filter, candidate_iff ht, and_assoc]

theorem planned_iff {r : FactRow Id N} (hr : r ∈ table.rows) :
    Planned opIdOf dialect ns now days table r ↔ r.namespaceId = ns ∧ Selected dialect now days r := by
  constructor
  · rintro ⟨op, hop, hid⟩
    obtain ⟨r', hr', hsel, rfl⟩ := mem_plannedOps.mp hop
    have hid' : r.id = r'.id := by simpa [extractTargetIds, planOp] using hid
    rw [List.inj_on_of_nodup_map table.nodup hr hr' hid']
    exact hsel
  · intro hsel
    exact ⟨planOp opIdOf ns days r, mem_plannedOps.mpr ⟨r, hr, hsel, rfl⟩, by simp [extractTargetIds, planOp]⟩

end Planned

/-! ## What is past the retention period -/

/-- The latest of the tombstone markers: `invalidated_at` when set, `updated_at` when `is_active` is false. -/
def FactRow.latestMarker (r : FactRow Id N) : Option ℤ :=
  Option.merge max (r.invalidatedAt.map Utc.instant) (if r.isActive then none else r.updatedAt.map Utc.instant)

/-- Every tombstone marker of the row is more than `days` before `now`. -/
def Due (now : Utc) (days : ℕ) (r : FactRow Id N) : Prop :=
  ∃ t, r.latestMarker = some t ∧ t < cutoff now days

/-- An inactive row was invalidated before the bound and updated after it. -/
def LateUpdate (now : Utc) (days : ℕ) (r : FactRow Id N) : Prop :=
  r.isActive = false ∧ ∃ i u, r.invalidatedAt = some i ∧ r.updatedAt = some u ∧
    i.instant < cutoff now days ∧ cutoff now days ≤ u.instant

/-- The coalesced marker of a tombstoned row is after the bound, on the bound's day. -/
def BoundaryDay (now : Utc) (days : ℕ) (r : FactRow Id N) : Prop :=
  r.tombstoned = true ∧ ∃ m, r.markerAt = some m ∧
    cutoff now days ≤ m.instant ∧ dayOf m.instant = dayOf (cutoff now days)

section Markers

omit [DecidableEq Id]

variable {dialect : Dialect} {now : Utc} {days : ℕ} {r : FactRow Id N}

theorem le_latestMarker {m : Utc} (ht : r.tombstoned = true) (hm : r.markerAt = some m) :
    ∃ t, r.latestMarker = some t ∧ m.instant ≤ t := by
  unfold FactRow.markerAt at hm
  unfold FactRow.latestMarker
  cases hi : r.invalidatedAt with
  | some i =>
      obtain rfl : i = m := by simpa [hi] using hm
      cases hu : (if r.isActive then none else r.updatedAt.map Utc.instant) with
      | none => exact ⟨_, rfl, le_rfl⟩
      | some u => exact ⟨_, rfl, le_max_left _ _⟩
  | none =>
      have hu : r.updatedAt = some m := by simpa [hi] using hm
      have ha : r.isActive = false := by simpa [FactRow.tombstoned, hi] using ht
      exact ⟨m.instant, by simp [ha, hu], le_rfl⟩

theorem tombstoned_of_latestMarker {t : ℤ} (h : r.latestMarker = some t) :
    r.tombstoned = true ∧ ∃ m, r.markerAt = some m := by
  unfold FactRow.latestMarker at h
  unfold FactRow.tombstoned FactRow.markerAt
  cases hi : r.invalidatedAt with
  | some i => simp
  | none =>
      cases ha : r.isActive with
      | true => simp [hi, ha] at h
      | false =>
          cases hu : r.updatedAt with
          | none => simp [hi, ha, hu] at h
          | some u => simp

/-- A row past the retention period is selected by either dialect. -/
theorem Selected.of_due (h : Due now days r) : Selected dialect now days r := by
  obtain ⟨t, ht, hlt⟩ := h
  obtain ⟨htomb, m, hm⟩ := tombstoned_of_latestMarker ht
  obtain ⟨t', ht', hle⟩ := le_latestMarker htomb hm
  obtain rfl : t = t' := by simpa [ht] using ht'
  exact ⟨htomb, m, hm, before_of_lt (lt_of_le_of_lt hle hlt)⟩

/-- A row of which the coalesced marker alone is before the bound was updated later. -/
theorem due_or_lateUpdate {m : Utc} (ht : r.tombstoned = true) (hm : r.markerAt = some m)
    (hlt : m.instant < cutoff now days) : Due now days r ∨ LateUpdate now days r := by
  obtain ⟨t, hlat, -⟩ := le_latestMarker ht hm
  by_cases hdue : t < cutoff now days
  · exact Or.inl ⟨t, hlat, hdue⟩
  right
  have hlat' := hlat
  unfold FactRow.markerAt at hm
  unfold FactRow.latestMarker at hlat
  cases hi : r.invalidatedAt with
  | none =>
      -- the one marker is `updated_at`
      have hu : r.updatedAt = some m := by simpa [hi] using hm
      have ha : r.isActive = false := by simpa [FactRow.tombstoned, hi] using ht
      have : m.instant = t := by simpa [hi, ha, hu] using hlat
      omega
  | some i =>
      obtain rfl : i = m := by simpa [hi] using hm
      cases ha : r.isActive with
      | true =>
          have : i.instant = t := by simpa [hi, ha] using hlat
          omega
      | false =>
          cases hu : r.updatedAt with
          | none =>
              have : i.instant = t := by simpa [hi, ha, hu] using hlat
              omega
          | some u =>
              have : max i.instant u.instant = t := by simpa [hi, ha, hu] using hlat
              exact ⟨ha, i, u, hi, hu, hlt, by omega⟩

theorem not_due_of_lateUpdate (h : LateUpdate now days r) : ¬ Due now days r := by
  obtain ⟨ha, i, u, hi, hu, -, hle⟩ := h
  rintro ⟨t, ht, hlt⟩
  have : max i.instant u.instant = t := by simpa [FactRow.latestMarker, hi, ha, hu] using ht
  omega

theorem not_due_of_boundaryDay (h : BoundaryDay now days r) : ¬ Due now days r := by
  obtain ⟨htomb, m, hm, hle, -⟩ := h
  rintro ⟨t, ht, hlt⟩
  obtain ⟨t', ht', hle'⟩ := le_latestMarker htomb hm
  obtain rfl : t = t' := by simpa [ht] using ht'
  omega

theorem Selected.of_lateUpdate (h : LateUpdate now days r) : Selected dialect now days r := by
  obtain ⟨-, i, u, hi, -, hlt, -⟩ := h
  exact ⟨by simp [FactRow.tombstoned, hi], i, by simp [FactRow.markerAt, hi], before_of_lt hlt⟩

/-- **What is selected too early**: a row updated late, and on SQLite a row of the bound's day. -/
theorem selected_iff_due : (Selected dialect now days r ↔ Due now days r) ↔
    ¬ LateUpdate now days r ∧ (dialect = .sqlite → ¬ BoundaryDay now days r) := by
  constructor
  · intro h
    constructor
    · intro hlate
      exact not_due_of_lateUpdate hlate (h.mp (.of_lateUpdate hlate))
    · rintro rfl hday
      obtain ⟨htomb, m, hm, hle, heq⟩ := id hday
      exact not_due_of_boundaryDay hday (h.mp ⟨htomb, m, hm, heq.le⟩)
  · rintro ⟨hlate, hday⟩
    refine ⟨?_, .of_due⟩
    rintro ⟨htomb, m, hm, hbefore⟩
    by_cases hlt : m.instant < cutoff now days
    · exact (due_or_lateUpdate htomb hm hlt).resolve_right hlate
    cases dialect with
    | postgresql => exact absurd hbefore hlt
    | sqlite => exact absurd ⟨htomb, m, hm, not_lt.mp hlt, le_antisymm hbefore (dayOf_mono (not_lt.mp hlt))⟩ (hday rfl)

end Markers

/-! ## What is deleted -/

section Apply

variable (texts : IdTexts Id) {opIdOf : Id → Id} {dialect : Dialect} {ns : Id} {now : Utc} {days : ℕ}
  {table later : FactTable Id N}

/-- Without the link that the deletion of another row may clear. -/
def FactRow.unlinked (r : FactRow Id N) : FactRow Id N := { r with supersededBy := none }

/-- Exactly the rows that the op names and the table still has are gone, and the record holds all of each. -/
def ApplyExact (dialect : Dialect) (op : DreamOp Id) (later : FactTable Id N) : Prop :=
  ∃ later' undo, applyFactCompaction texts dialect op later = .ok (later', undo) ∧
    later'.rows.map FactRow.unlinked =
      (later.rows.filter fun r => r.id ∉ extractTargetIds op).map FactRow.unlinked ∧
    undo.rows = (later.rows.filter fun r => r.id ∈ extractTargetIds op).map fun r =>
      (texts.str r.id, snapshot texts dialect r)

omit [DecidableEq Id] in
theorem unlinked_map_unlink [DecidableEq Id] (ids : List Id) (rows : List (FactRow Id N)) :
    (rows.map (FactRow.unlink ids)).map FactRow.unlinked = rows.map FactRow.unlinked := by
  rw [List.map_map]
  rfl

/-- The handler on an op of the plan. -/
theorem apply_planOp (hdays : 7 ≤ days) (r : FactRow Id N) (later : FactTable Id N) :
    applyFactCompaction texts dialect (planOp opIdOf ns days r) later =
      match later.rows.find? fun r' => r'.id = r.id with
      | some r' => .ok (deleteRows later [r.id],
          ⟨opIdOf r.id, [(texts.str r.id, snapshot texts dialect r')], days⟩)
      | none => .ok (later, ⟨opIdOf r.id, [], days⟩) := by
  have hfloor : ¬ (days : ℤ) < retentionFloorDays := by
    unfold retentionFloorDays
    omega
  cases hfind : later.rows.find? fun r' => r'.id = r.id with
  | none =>
      simp [applyFactCompaction, planOp, extractRetentionDays, extractTargetIds, snapshotRow, hfind, hfloor,
        pure, Except.pure, bind, Except.bind]
  | some r' =>
      simp [applyFactCompaction, planOp, extractRetentionDays, extractTargetIds, snapshotRow, hfind, hfloor,
        pure, Except.pure, bind, Except.bind]

/-- **The handler of a planned op is exact**, on any table it meets. -/
theorem apply_planned {op : DreamOp Id} (hdays : 7 ≤ days)
    (hop : op ∈ plannedOps opIdOf dialect ns now days table) (later : FactTable Id N) :
    ApplyExact texts dialect op later := by
  obtain ⟨r, -, -, rfl⟩ := mem_plannedOps.mp hop
  have htargets : extractTargetIds (planOp opIdOf ns days r) = [r.id] := rfl
  unfold ApplyExact
  rw [apply_planOp texts hdays, htargets]
  simp only [List.mem_singleton]
  have hfilter := later.filter_key r.id
  cases hfind : later.rows.find? fun r' => r'.id = r.id with
  | none =>
      rw [hfind] at hfilter
      refine ⟨_, _, rfl, ?_, by rw [hfilter]; rfl⟩
      have hall : ∀ r' ∈ later.rows, r'.id ≠ r.id := by
        intro r' hr' heq
        have := List.filter_eq_nil_iff.mp hfilter r' hr'
        simp [heq] at this
      rw [List.filter_eq_self.mpr (by simpa using hall)]
  | some r' =>
      rw [hfind] at hfilter
      have hid : r'.id = r.id := by simpa using List.find?_some hfind
      refine ⟨_, _, rfl, ?_, by rw [hfilter]; simp [hid]⟩
      simp only [deleteRows, unlinked_map_unlink, List.mem_singleton]

end Apply

/-! ## The retention period -/

section Right

variable (texts : IdTexts Id) (opIdOf : Id → Id) (dialect : Dialect) (ns : Id) (now : Utc) (days : ℕ)

/-- Exactly the rows past the retention period are planned, and each op deletes and records exactly its row. -/
structure CompactionRight (table : FactTable Id N) : Prop where
  planned_iff_due : ∀ r ∈ table.rows, r.namespaceId = ns →
    (Planned opIdOf dialect ns now days table r ↔ Due now days r)
  apply_exact : ∀ op ∈ plannedOps opIdOf dialect ns now days table, ∀ later : FactTable Id N,
    ApplyExact texts dialect op later

theorem compactionRight_iff (hdays : 7 ≤ days) (table : FactTable Id N) :
    CompactionRight texts opIdOf dialect ns now days table ↔
      ∀ r ∈ table.rows, r.namespaceId = ns →
        (Selected dialect now days r ↔ Due now days r) := by
  have hplanned : ∀ r ∈ table.rows, r.namespaceId = ns →
      (Planned opIdOf dialect ns now days table r ↔ Selected dialect now days r) := by
    intro r hr hns
    rw [planned_iff hr]
    exact and_iff_right hns
  constructor
  · intro h r hr hns
    rw [← hplanned r hr hns]
    exact h.planned_iff_due r hr hns
  · intro h
    refine ⟨?_, fun op hop later => apply_planned texts hdays hop later⟩
    intro r hr hns
    rw [hplanned r hr hns]
    exact h r hr hns

/-- **The tables that compaction treats as documented** are those with no inactive row that was invalidated before
the bound and updated after it, and on SQLite no tombstoned row whose marker is after the bound on the bound's
day. -/
theorem compaction_exact (hdays : 7 ≤ days) (table : FactTable Id N) :
    CompactionRight texts opIdOf dialect ns now days table ↔
      ∀ r ∈ table.rows, r.namespaceId = ns →
        ¬ LateUpdate now days r ∧ (dialect = .sqlite → ¬ BoundaryDay now days r) := by
  rw [compactionRight_iff texts opIdOf dialect ns now days hdays]
  simp only [selected_iff_due]

end Right

/-- Noon of a date, in UTC. -/
def noon (y m d : ℕ) (h : validDate y m d = true) : Utc :=
  ⟨⟨y, m, d, 12, 0, 0, 0, some 0, h, by decide, utc_valid⟩, rfl⟩

def natTexts : IdTexts ℕ := ⟨toString, toString, toString⟩

/-- An inactive row of namespace `1` with the given markers. -/
def retiredRow (invalidatedAt updatedAt : Option Utc) : FactRow ℕ ℕ where
  id := 7
  namespaceId := 1
  subject := "Alice"
  predicate := "lives_in"
  object := "Lisbon"
  factText := "Alice lives in Lisbon"
  confidence := 1
  isActive := false
  supersededBy := some 9
  sourceChunkIds := [3]
  sessionId := none
  validTo := none
  invalidatedAt := invalidatedAt
  invalidatedBy := none
  createdAt := updatedAt
  updatedAt := updatedAt

def retiredTable (invalidatedAt updatedAt : Option Utc) : FactTable ℕ ℕ where
  rows := [retiredRow invalidatedAt updatedAt]
  nodup := by simp

/-- A row retired in May is past thirty days at the end of June, for both dialects. -/
theorem compaction_exact_oldRow :
    CompactionRight natTexts id .postgresql 1 (noon 2026 6 30 rfl) 30
        (retiredTable none (some (noon 2026 5 1 rfl))) ∧
      CompactionRight natTexts id .sqlite 1 (noon 2026 6 30 rfl) 30
        (retiredTable none (some (noon 2026 5 1 rfl))) := by
  have hright : ∀ dialect : Dialect,
      CompactionRight natTexts id dialect 1 (noon 2026 6 30 rfl) 30
        (retiredTable none (some (noon 2026 5 1 rfl))) := by
    intro dialect
    apply (compaction_exact natTexts id dialect 1 _ 30 (by decide) _).mpr
    intro r hr _
    obtain rfl : r = retiredRow none (some (noon 2026 5 1 rfl)) := by simpa [retiredTable] using hr
    constructor
    · rintro ⟨-, i, u, hi, -⟩
      cases hi
    · rintro - ⟨-, m, hm, hle, -⟩
      obtain rfl : noon 2026 5 1 rfl = m := by simpa [retiredRow, FactRow.markerAt] using hm
      revert hle
      decide
  exact ⟨hright .postgresql, hright .sqlite⟩

/-- A row that was invalidated in May and touched on 20 June is planned at the end of June under thirty days of
retention; on SQLite, so is a row whose marker is thirty days old to the second. -/
theorem youngRows_diverge :
    ¬ CompactionRight natTexts id .postgresql 1 (noon 2026 6 30 rfl) 30
        (retiredTable (some (noon 2026 5 1 rfl)) (some (noon 2026 6 20 rfl))) ∧
    ¬ CompactionRight natTexts id .sqlite 1 (noon 2026 6 30 rfl) 30
        (retiredTable none (some (noon 2026 5 31 rfl))) := by
  constructor
  · intro h
    have hrow := (compactionRight_iff _ _ _ _ _ _ (by decide) _).mp h _ (List.mem_singleton.mpr rfl) rfl
    exact (selected_iff_due.mp hrow).1 ⟨rfl, _, _, rfl, rfl, by decide, by decide⟩
  · intro h
    have hrow := (compactionRight_iff _ _ _ _ _ _ (by decide) _).mp h _ (List.mem_singleton.mpr rfl) rfl
    exact (selected_iff_due.mp hrow).2 rfl ⟨rfl, _, rfl, by decide, by decide⟩

end FactCompaction

end Khora
