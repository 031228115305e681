import Khora.Filter.Superset

/-!
# System columns of stored chunks

The date columns of `khora_chunks` hold UTC instants, the string columns text.  Compiled conditions
are compared with the in-memory predicate on such columns, so what that predicate says of one is
worked out here once.

* `systemClause_value` — a system leaf whose operand has its column's type.
-/

namespace Khora

open Calendar (DateTime validDate)
open Fallible

/-! ## System columns -/

inductive SystemKey where
  | date (k : DateKey)
  | string (k : StringKey)
deriving DecidableEq, Repr

namespace SystemKey

def name : SystemKey → String
  | date k => k.name
  | string k => k.name

def all : List SystemKey := DateKey.all.map date ++ StringKey.all.map string

def ofName? (s : String) : Option SystemKey := all.find? fun k => k.name == s

theorem exists_ofName? {s : String} (h : s ∈ systemKeys) :
    ∃ k, ofName? s = some k ∧ k.name = s := by
  have hsome : (ofName? s).isSome = true := by
    revert s
    decide
  obtain ⟨k, hk⟩ := Option.isSome_iff_exists.mp hsome
  exact ⟨k, hk, by simpa using List.find?_some hk⟩

theorem ofName?_metadata : ofName? "metadata" = none := by decide

/-- The operand has the type of the key's column. -/
def Typed (k : SystemKey) (operand : Value) : Prop :=
  match k with
  | date _ => ∃ d, systemValue operand = .datetime d ∧ d.offset = some 0
  | string _ => ∃ s, operand = .str s

/-- A decoded column value: absent, or of the column's type. -/
def Holds (k : SystemKey) (stored : Value) : Prop :=
  stored = .none ∨ match k with
    | date _ => ∃ d : DateTime, stored = .datetime d ∧ d.offset = some 0
    | string _ => ∃ s, stored = .str s

end SystemKey

/-- Midnight UTC of a day in January 2024. -/
def january (day : ℕ) (h : validDate 2024 1 day = true) : DateTime where
  year := 2024
  month := 1
  day := day
  hour := 0
  minute := 0
  second := 0
  micro := 0
  offset := some 0
  date_valid := h
  time_valid := Calendar.midnight_valid
  offset_valid := Calendar.utc_valid

/-! ## What the predicate reads -/

section Reads

variable {ctx : CompileContext}

theorem physical_of_none (hmap : ctx.fieldMapping = none) (key : String) : ctx.physical key = key := by
  simp [CompileContext.physical, hmap]

theorem systemKey?_mem {c : FilterClause} {key : String} (h : c.systemKey? = some key) :
    key ∈ systemKeys := by
  unfold FilterClause.systemKey? at h
  split at h
  · split at h
    · cases h
      assumption
    · cases h
  · cases h

end Reads

/-! ## System leaves -/

section System

/-- Equality of two values of one column type. -/
def typedEq : Value → Value → Bool
  | .str s, .str t => s == t
  | .datetime a, .datetime b => a.instant == b.instant
  | _, _ => false

/-- The order of two values of one column type. -/
def typedLt : Value → Value → Bool
  | .str s, .str t => decide (s < t)
  | .datetime a, .datetime b => decide (a.instant < b.instant)
  | _, _ => false

/-- The operands of a system leaf have the type of its column. -/
def SystemOperandOk (k : SystemKey) (op : Op) (operand : Value) : Prop :=
  match op with
  | .exists_ => True
  | .in_ => ∀ items, operand = .tuple items → ∀ x ∈ items, k.Typed x
  | .nin => ∀ items, operand = .tuple items → ∀ x ∈ items, k.Typed x
  | .eq => operand.isTuple = true ∨ operand.isNone = true ∨ k.Typed operand
  | .ne => operand.isTuple = true ∨ operand.isNone = true ∨ k.Typed operand
  | _ => operand.isNone = true ∨ k.Typed operand

/-- The truth value of a system leaf on a stored value. -/
def systemTruth (stored : Value) (op : Op) (operand : Value) : Bool :=
  match op with
  | .exists_ => operand.truthy
  | .in_ => match operand with
      | .tuple items => !stored.isNone && items.any fun x => typedEq stored (systemValue x)
      | _ => false
  | .nin => match operand with
      | .tuple items => stored.isNone || !(items.any fun x => typedEq stored (systemValue x))
      | _ => false
  | op =>
      if op = .eq ∧ operand.isTuple then false
      else if op = .ne ∧ operand.isTuple then true
      else if operand.isNone then if op = .ne then !stored.isNone else stored.isNone
      else if op = .ne then stored.isNone || !typedEq stored (systemValue operand)
      else if op = .eq then !stored.isNone && typedEq stored (systemValue operand)
      else match rangeOp? op with
        | some c => !stored.isNone && c.decide (typedLt stored (systemValue operand))
            (typedLt (systemValue operand) stored)
        | none => false

/-- Between UTC values the text decides equality. -/
theorem isoformat_beq {a b : DateTime} (ha : a.offset = some 0) (hb : b.offset = some 0) :
    (a.isoformat == b.isoformat) = (a.instant == b.instant) := by
  rw [Bool.eq_iff_iff, beq_iff_eq, beq_iff_eq]
  constructor
  · intro h
    rw [DateTime.isoformat_injective h]
  · intro h
    have hwall : a.wall = b.wall := by simpa [DateTime.instant, ha, hb] using h
    rw [DateTime.eq_of_wall_eq hwall (ha.trans hb.symm)]

/-- What the in-memory comparisons say of two values of one column type. -/
structure Compared (stored operand : Value) : Prop where
  comparable : stored.comparable operand = true
  eqAligned : eqAligned stored operand = .ok (typedEq stored operand)
  range : ∀ c, (do let (s, v) ← alignDt stored operand; s.pyCompare c v) =
    .ok (c.decide (typedLt stored operand) (typedLt operand stored))

theorem compared_str (s t : String) : Compared (.str s) (.str t) where
  comparable := rfl
  eqAligned := rfl
  range := fun _ => rfl

theorem compared_datetime {a b : DateTime} (ha : a.offset = some 0) (hb : b.offset = some 0) :
    Compared (.datetime a) (.datetime b) := by
  have halign : alignDt (.datetime a) (.datetime b) = .ok (.datetime a, .datetime b) := by
    simp [alignDt, toUtc, DateTime.toUtc_eq_self ha, DateTime.toUtc_eq_self hb, bind, Except.bind]
  have haware : a.aware = b.aware := by simp [DateTime.aware, ha, hb]
  refine ⟨rfl, ?_, fun c => ?_⟩
  · rw [eqAligned, halign]
    show Except.ok (Value.datetimeEq a b) = _
    simp [Value.datetimeEq, haware, typedEq]
  · rw [halign]
    show Value.cmpDatetime c a b = _
    rw [Value.cmpDatetime, if_pos haware]
    rfl

variable {k : SystemKey} {stored : Value}

theorem isNone_iff {v : Value} : v.isNone = true ↔ v = .none := by
  cases v <;> simp [Value.isNone]

/-- A typed operand is compared with the stored value by the column's order. -/
theorem compared_of_typed {operand : Value} (ho : k.Typed operand) (hs : k.Holds stored)
    (hne : stored.isNone = false) : Compared stored (systemValue operand) := by
  rcases hs with rfl | hs
  · simp [Value.isNone] at hne
  · cases k with
    | date k =>
        obtain ⟨d, hd, hoff⟩ := ho
        obtain ⟨e, rfl, he⟩ := hs
        rw [hd]
        exact compared_datetime he hoff
    | string k =>
        obtain ⟨s, rfl⟩ := ho
        obtain ⟨t, rfl⟩ := hs
        exact compared_str t s

theorem anyM_systemMember {items : List Value} (h : ∀ x ∈ items, k.Typed x) (hs : k.Holds stored)
    (hne : stored.isNone = false) :
    (items.map systemValue).anyM (systemMember stored) =
      .ok (items.any fun x => typedEq stored (systemValue x)) := by
  have htotal : (items.map systemValue).anyM (systemMember stored) =
      .ok ((items.map systemValue).any fun x => typedEq stored x) := by
    refine anyM_total fun x hx => ?_
    obtain ⟨y, hy, rfl⟩ := List.mem_map.mp hx
    have hc := compared_of_typed (h y hy) hs hne
    rw [systemMember, if_pos hc.comparable, hc.eqAligned]
  rw [htotal, List.any_map]
  rfl

theorem systemEq_value {operand : Value} (ho : k.Typed operand) (hs : k.Holds stored) :
    systemEq stored (systemValue operand) =
      .ok (!stored.isNone && typedEq stored (systemValue operand)) := by
  cases hn : stored.isNone with
  | true => simp [systemEq, hn]
  | false =>
      have hc := compared_of_typed ho hs hn
      simp [systemEq, hn, hc.comparable, hc.eqAligned]

theorem systemNe_value {operand : Value} (ho : k.Typed operand) (hs : k.Holds stored) :
    systemNe stored (systemValue operand) =
      .ok (stored.isNone || !typedEq stored (systemValue operand)) := by
  cases hn : stored.isNone with
  | true => simp [systemNe, hn]
  | false =>
      have hc := compared_of_typed ho hs hn
      simp [systemNe, hn, hc.comparable, hc.eqAligned]

theorem systemRange_value {operand : Value} (c : Value.Cmp) (ho : k.Typed operand)
    (hs : k.Holds stored) : systemRange c stored (systemValue operand) =
      .ok (!stored.isNone && c.decide (typedLt stored (systemValue operand))
        (typedLt (systemValue operand) stored)) := by
  cases hn : stored.isNone with
  | true => simp [systemRange, hn]
  | false =>
      have hc := compared_of_typed ho hs hn
      rw [systemRange, if_neg (by simp [hn]), if_neg (by simp [hc.comparable]), hc.range]
      simp

theorem systemIn_value {items : List Value} (h : ∀ x ∈ items, k.Typed x) (hs : k.Holds stored) :
    systemIn stored (items.map systemValue) =
      .ok (!stored.isNone && items.any fun x => typedEq stored (systemValue x)) := by
  cases hn : stored.isNone with
  | true => simp [systemIn, hn]
  | false => simp [systemIn, hn, anyM_systemMember h hs hn]

theorem systemNin_value {items : List Value} (h : ∀ x ∈ items, k.Typed x) (hs : k.Holds stored) :
    systemNin stored (items.map systemValue) =
      .ok (stored.isNone || !(items.any fun x => typedEq stored (systemValue x))) := by
  cases hn : stored.isNone with
  | true => simp [systemNin, hn]
  | false => simp [systemNin, hn, anyM_systemMember h hs hn]

theorem SystemKey.Typed.not_tuple_none {operand : Value} (h : k.Typed operand) :
    operand.isTuple = false ∧ operand.isNone = false := by
  cases k with
  | date k =>
      obtain ⟨d, hd, -⟩ := h
      cases operand <;> simp_all [systemValue, Value.isTuple, Value.isNone]
  | string k =>
      obtain ⟨s, rfl⟩ := h
      exact ⟨rfl, rfl⟩

section Clause

variable {ctx : CompileContext} {r : Record} {key : String} {op : Op} {operand : Value}

theorem rangeClause_value {c : Value.Cmp} (hc : rangeOp? op = some c)
    (hstored : resolveSystem ctx r key = stored) (hs : k.Holds stored)
    (hok : operand.isNone = true ∨ k.Typed operand) :
    (compileSystemClause ctx key op operand >>= fun q => q r) =
      .ok (systemTruth stored op operand) := by
  rcases hok with hn | ho
  · cases op <;> cases hc <;>
      simp [compileSystemClause, systemTruth, hn, hstored, bind, Except.bind]
  · obtain ⟨ht, hn⟩ := ho.not_tuple_none
    have hval := systemRange_value c ho hs
    cases op <;> cases hc <;>
      simp [compileSystemClause, systemTruth, rangeOp?, ht, hn, hstored, hval, bind, Except.bind]

/-- **A system leaf whose operand has its column's type.** -/
theorem systemClause_value (hop : op ∈ clauseOps)
    (htuple : op = .in_ ∨ op = .nin → ∃ xs, operand = .tuple xs)
    (hstored : resolveSystem ctx r key = stored) (hs : k.Holds stored)
    (hok : SystemOperandOk k op operand) :
    (compileSystemClause ctx key op operand >>= fun q => q r) =
      .ok (systemTruth stored op operand) := by
  cases op
  case exists_ => rfl
  case in_ =>
      obtain ⟨xs, rfl⟩ := htuple (.inl rfl)
      have hval := systemIn_value (hok xs rfl) hs
      simpa [compileSystemClause, pyIter, systemTruth, hstored, bind, Except.bind] using hval
  case nin =>
      obtain ⟨xs, rfl⟩ := htuple (.inr rfl)
      have hval := systemNin_value (hok xs rfl) hs
      simpa [compileSystemClause, pyIter, systemTruth, hstored, bind, Except.bind] using hval
  case eq =>
      rcases hok with ht | hn | ho
      · simp [compileSystemClause, systemTruth, ht, bind, Except.bind]
      · obtain rfl := isNone_iff.mp hn
        simp [compileSystemClause, systemTruth, Value.isTuple, Value.isNone, hstored, bind, Except.bind]
      · obtain ⟨ht, hn⟩ := ho.not_tuple_none
        have hval := systemEq_value ho hs
        simp [compileSystemClause, systemTruth, ht, hn, hstored, hval, bind, Except.bind]
  case ne =>
      rcases hok with ht | hn | ho
      · simp [compileSystemClause, systemTruth, ht, bind, Except.bind]
      · obtain rfl := isNone_iff.mp hn
        simp [compileSystemClause, systemTruth, Value.isTuple, Value.isNone, hstored, bind, Except.bind]
      · obtain ⟨ht, hn⟩ := ho.not_tuple_none
        have hval := systemNe_value ho hs
        simp [compileSystemClause, systemTruth, ht, hn, hstored, hval, bind, Except.bind]
  case gt => exact rangeClause_value rfl hstored hs hok
  case gte => exact rangeClause_value rfl hstored hs hok
  case lt => exact rangeClause_value rfl hstored hs hok
  case lte => exact rangeClause_value rfl hstored hs hok
  all_goals exact absurd hop (by decide)

end Clause

end System

end Khora
