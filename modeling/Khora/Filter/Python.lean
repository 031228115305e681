import Khora.Filter.Lower
import Khora.Filter.Split

/-!
# The in-memory predicate compiler

`compile_python` turns an AST into a predicate over one record.  It is the oracle
the SQL compilers are compared with, so its comparisons are modelled with the
exceptions Python's operators raise: a predicate is a function to
`Except PyErr Bool`.

* `predicate_returns` — the predicate returns on a record when every leaf is
  `LeafSafe` there, and a one-leaf filter returns exactly then.
* `returns_pyCompare_iff` — when Python can order two values.
-/

namespace Khora

open Calendar (DateTime fromisoformat)

/-! ## Records -/

/-- A record as the predicate reads it: its attributes, the attributes of its
`source_document` (absent, `None`, or an object) and its items if it is a mapping. -/
structure Record where
  attr : String → Option Value
  sourceDocument : Option (Option (String → Option Value))
  item : Option (String → Option Value)

abbrev Predicate := Record → Except PyErr Bool

section Resolve

variable (ctx : CompileContext) (record : Record)

/-- `_getitem_or_missing`. -/
def Record.getItem (record : Record) (key : String) : Option Value := record.item.bind (· key)

/-- `_resolve_system`: the attribute, then the source document, then the item. -/
def resolveSystem (key : String) : Value :=
  let physical := ctx.physical key
  match record.attr physical with
  | some v => v
  | none => match (record.sourceDocument.bind id).bind (· physical) with
      | some v => v
      | none => (record.getItem physical).getD .none

/-- `_resolve_metadata`: a blob that is absent or no mapping is `{}`. -/
def resolveMetadata : List (Key × Value) :=
  match (record.attr "metadata").or (record.getItem "metadata") with
  | some (.dict fs) => fs
  | _ => []

end Resolve

/-! ## Dates -/

/-- `_to_utc`. -/
def toUtc (d : DateTime) : Except PyErr DateTime :=
  match d.toUtc with
  | some u => .ok u
  | none => .error .overflowError

/-- `_align_dt`: a pair of date-times is moved to UTC. -/
def alignDt (stored value : Value) : Except PyErr (Value × Value) :=
  match stored, value with
  | .datetime s, .datetime v => do
      let s ← toUtc s
      let v ← toUtc v
      .ok (.datetime s, .datetime v)
  | s, v => .ok (s, v)

/-- `_try_parse_utc`: `none` for a text that is no date-time. -/
def tryParseUtc (text : String) : Except PyErr (Option DateTime) :=
  match fromisoformat text with
  | none => .ok none
  | some d => some <$> toUtc d

/-! ## System keys -/

/-- `_system_value`. -/
def systemValue : Value → Value
  | .dateLiteral d => .datetime d
  | v => v

/-- `_eq_aligned`. -/
def eqAligned (stored value : Value) : Except PyErr Bool := do
  let (s, v) ← alignDt stored value
  .ok (s.pyEq v)

/-- `_system_eq`. -/
def systemEq (stored value : Value) : Except PyErr Bool :=
  if stored.isNone then .ok false
  else if !stored.comparable value then .ok false
  else eqAligned stored value

/-- `_system_ne`. -/
def systemNe (stored value : Value) : Except PyErr Bool :=
  if stored.isNone then .ok true
  else if !stored.comparable value then .ok true
  else Fallible.notE (eqAligned stored value)

/-- One member of the set in `_system_in` / `_system_nin`. -/
def systemMember (stored value : Value) : Except PyErr Bool :=
  if stored.comparable value then eqAligned stored value else .ok false

/-- `_system_in`. -/
def systemIn (stored : Value) (values : List Value) : Except PyErr Bool :=
  if stored.isNone then .ok false else values.anyM (systemMember stored)

/-- `_system_nin`. -/
def systemNin (stored : Value) (values : List Value) : Except PyErr Bool :=
  if stored.isNone then .ok true else Fallible.notE (values.anyM (systemMember stored))

/-- `_system_range`. -/
def systemRange (c : Value.Cmp) (stored value : Value) : Except PyErr Bool :=
  if stored.isNone then .ok false
  else if !stored.comparable value then .ok false
  else do
    let (s, v) ← alignDt stored value
    s.pyCompare c v

/-- `_RANGE_FN[op]`. -/
def rangeOp? : Op → Option Value.Cmp
  | .gt => some .gt
  | .gte => some .gte
  | .lt => some .lt
  | .lte => some .lte
  | _ => none

def Value.isTuple : Value → Bool
  | .tuple _ => true
  | _ => false

/-- `_Builder._compile_system_clause`. -/
def compileSystemClause (ctx : CompileContext) (key : String) (op : Op) (operand : Value) :
    Except PyErr Predicate :=
  match op with
  | .exists_ => .ok fun _ => .ok operand.truthy
  | .in_ => do
      let values ← pyIter operand
      .ok fun r => systemIn (resolveSystem ctx r key) (values.map systemValue)
  | .nin => do
      let values ← pyIter operand
      .ok fun r => systemNin (resolveSystem ctx r key) (values.map systemValue)
  | op =>
      -- an exact-array operand never equals a scalar
      if op = .eq ∧ operand.isTuple then .ok fun _ => .ok false
      else if op = .ne ∧ operand.isTuple then .ok fun _ => .ok true
      else if operand.isNone then
        if op = .ne then .ok fun r => .ok !(resolveSystem ctx r key).isNone
        else .ok fun r => .ok (resolveSystem ctx r key).isNone
      else if op = .ne then .ok fun r => systemNe (resolveSystem ctx r key) (systemValue operand)
      else if op = .eq then .ok fun r => systemEq (resolveSystem ctx r key) (systemValue operand)
      else match rangeOp? op with
        | some c => .ok fun r => systemRange c (resolveSystem ctx r key) (systemValue operand)
        | none => .error .keyError

/-! ## Metadata -/

/-- `_md_dig`: `none` is `MISSING`. -/
def mdDig : Value → List String → Option Value
  | v, [] => some v
  | .dict fs, seg :: segs => match Value.lookup (.str seg) fs with
      | some v => mdDig v segs
      | none => none
  | _, _ :: _ => none

/-- `_md_is_null`. -/
def mdIsNull : Option Value → Bool
  | none => true
  | some v => v.isNone

/-- `_md_contains`: the node, or an item of a list node, equals the value. -/
def mdContains (node : Option Value) (value : Value) : Bool :=
  match node with
  | none => false
  | some (.list items) => items.any fun item => item.jsonable.jsonEq value.jsonable
  | some v => v.jsonable.jsonEq value.jsonable

/-- `_exact_array_eq`. -/
def exactArrayEq (node : Option Value) (expected : List Value) : Bool :=
  match node with
  | some (.list items) =>
      (Value.list (Value.jsonableItems items)).jsonEq (.list (Value.jsonableItems expected))
  | _ => false

/-- `_md_object_eq`. -/
def mdObjectEq (node : Option Value) (expected : Value) : Bool :=
  match node with
  | some (.dict fs) => (Value.dict fs).jsonable.jsonEq expected.jsonable
  | _ => false

/-- `_md_range_compare`. -/
def mdRangeCompare (c : Value.Cmp) (node : Option Value) (operand : Value) : Except PyErr Bool :=
  match node with
  | none => .ok false
  | some v => if !v.comparable operand then .ok false else v.pyCompare c operand

/-- `_md_date_compare`; `c` is `none` for `$eq`. -/
def mdDateCompare (c : Option Value.Cmp) (node : Option Value) (operand : DateTime) :
    Except PyErr Bool :=
  match node with
  | some (.str text) => do
      match ← tryParseUtc text with
      | none => .ok false
      | some parsed => match c with
          | none => .ok (Value.datetimeEq parsed operand)
          | some c => Value.cmpDatetime c parsed operand
  | _ => .ok false

section Metadata

variable (ctx : CompileContext) (segs : List String)

/-- `_Builder._md_extract`. -/
def mdExtract (record : Record) : Option Value := mdDig (.dict (resolveMetadata record)) segs

/-- `_Builder._md_eq_fn`. -/
def mdEqFn (operand : Value) : Predicate :=
  match operand with
  | .dateLiteral d => fun r => mdDateCompare none (mdExtract segs r) d
  | .tuple items => fun r => .ok (exactArrayEq (mdExtract segs r) items)
  | .dict fs => fun r => .ok (mdObjectEq (mdExtract segs r) (.dict fs))
  | v => fun r => .ok (mdContains (mdExtract segs r) v)

/-- `_Builder._md_range_fn`. -/
def mdRangeFn (c : Value.Cmp) (operand : Value) : Predicate :=
  match operand with
  | .dateLiteral d => fun r => mdDateCompare (some c) (mdExtract segs r) d
  | v => fun r => mdRangeCompare c (mdExtract segs r) v

/-- The metadata clauses below the blob. -/
def compileMetadataPath (op : Op) (operand : Value) : Except PyErr Predicate :=
  match op with
  | .exists_ => .ok fun r => .ok ((mdExtract segs r).isSome == operand.truthy)
  | .in_ =>
      if !operand.truthy then .ok fun _ => .ok false
      else do
        let values ← pyIter operand
        .ok fun r => .ok (values.any (mdContains (mdExtract segs r)))
  | .nin =>
      if !operand.truthy then .ok fun _ => .ok true
      else do
        let values ← pyIter operand
        .ok fun r => .ok !(values.any (mdContains (mdExtract segs r)))
  | .eq =>
      if operand.isNone then .ok fun r => .ok (mdIsNull (mdExtract segs r))
      else .ok (mdEqFn segs operand)
  | .ne =>
      if operand.isNone then .ok fun r => .ok !(mdIsNull (mdExtract segs r))
      else .ok fun r => Fallible.notE (mdEqFn segs operand r)
  | op => match rangeOp? op with
      | some c => .ok (mdRangeFn segs c operand)
      | none => .error .keyError

/-- `_Builder._unsupported`. -/
def pythonUnsupported (c : FilterClause) (reason : String) : Except PyErr Predicate :=
  if ctx.isSplit then .ok fun _ => .ok true else .error (.unsupported c.pathStr reason)

/-- `_Builder._compile_metadata_clause`. -/
def compileMetadataClause (c : FilterClause) : Except PyErr Predicate :=
  match segs with
  | [] =>
      if c.op = .eq then
        .ok fun r => .ok ((Value.dict (resolveMetadata r)).jsonable.jsonEq c.operand.jsonable)
      else pythonUnsupported ctx c "only $eq is defined on the bare metadata blob"
  | _ => compileMetadataPath segs c.op c.operand

end Metadata

/-! ## The compiler -/

section Compile

variable (ctx : CompileContext)

/-- `_Builder.compile_clause`. -/
def compilePythonClause (c : FilterClause) : Except PyErr Predicate :=
  match c.systemKey?, c.metadataPath? with
  | some key, _ => compileSystemClause ctx key c.op c.operand
  | none, some segs => compileMetadataClause ctx segs c
  | none, none => pythonUnsupported ctx c "path is neither a system key nor a metadata path"

mutual

/-- `_Builder.compile_node`. -/
def compilePythonNode : Ast → Except PyErr Predicate
  | .clause c => compilePythonClause ctx c
  | .node .and cs => do
      let fns ← compilePythonNodes cs
      .ok fun r => fns.allM fun fn => fn r
  | .node .or cs => do
      let fns ← compilePythonNodes cs
      .ok fun r => fns.anyM fun fn => fn r
  | .node _ [] => .error .indexError
  | .node _ (c :: _) => do
      let fn ← compilePythonNode c
      .ok fun r => Fallible.notE (fn r)

def compilePythonNodes : List Ast → Except PyErr (List Predicate)
  | [] => .ok []
  | c :: cs => do
      let fn ← compilePythonNode c
      let fns ← compilePythonNodes cs
      .ok (fn :: fns)

end

/-- `compile_python`: the predicate. -/
def compilePython (ast : Ast) : Except PyErr Predicate := compilePythonNode ctx ast

end Compile

/-! ## When Python can order two values -/

mutual

/-- Python's range operators return on the pair. -/
def Value.orderable : Value → Value → Bool
  | .bool _, b => b.number?.isSome
  | .int _, b => b.number?.isSome
  | .float _, b => b.number?.isSome
  | .str _, b => match b with
      | .str _ => true
      | _ => false
  | .list as, b => match b with
      | .list bs => Value.orderableItems as bs
      | _ => false
  | .tuple as, b => match b with
      | .tuple bs => Value.orderableItems as bs
      | _ => false
  | .datetime a, b => match b with
      | .datetime b => a.aware == b.aware
      | _ => false
  | .none, _ => false
  | .dict _, _ => false
  | .dateLiteral _, _ => false

/-- Two sequences can be ordered when their first differing items can. -/
def Value.orderableItems : List Value → List Value → Bool
  | [], _ => true
  | a :: as, bs => match bs with
      | [] => true
      | b :: bs => if a.pyEq b then Value.orderableItems as bs else a.orderable b

end

open Fallible

mutual

/-- **Python orders two values exactly when they are orderable.** -/
theorem returns_pyCompare_iff (c : Value.Cmp) : ∀ a b : Value,
    Returns (a.pyCompare c b) ↔ a.orderable b = true
  | .bool x, b => by
      rw [Value.pyCompare, Value.orderable]
      cases b.number? <;> simp
  | .int x, b => by
      rw [Value.pyCompare, Value.orderable]
      cases b.number? <;> simp
  | .float x, b => by
      rw [Value.pyCompare, Value.orderable]
      cases b.number? <;> simp
  | .str x, b => by cases b <;> simp [Value.pyCompare, Value.orderable]
  | .list as, b => by
      cases b
      case list bs => simpa [Value.pyCompare, Value.orderable] using returns_pyCompareItems_iff c as bs
      all_goals simp [Value.pyCompare, Value.orderable]
  | .tuple as, b => by
      cases b
      case tuple bs =>
          simpa [Value.pyCompare, Value.orderable] using returns_pyCompareItems_iff c as bs
      all_goals simp [Value.pyCompare, Value.orderable]
  | .datetime x, b => by
      cases b
      case datetime y =>
          by_cases h : x.aware = y.aware <;>
            simp [Value.pyCompare, Value.orderable, Value.cmpDatetime, h]
      all_goals simp [Value.pyCompare, Value.orderable]
  | .none, b => by simp [Value.pyCompare, Value.orderable]
  | .dict fs, b => by simp [Value.pyCompare, Value.orderable]
  | .dateLiteral d, b => by simp [Value.pyCompare, Value.orderable]

theorem returns_pyCompareItems_iff (c : Value.Cmp) : ∀ as bs : List Value,
    Returns (Value.pyCompareItems c as bs) ↔ Value.orderableItems as bs = true
  | [], bs => by simp [Value.pyCompareItems, Value.orderableItems]
  | a :: as, [] => by simp [Value.pyCompareItems, Value.orderableItems]
  | a :: as, b :: bs => by
      simp only [Value.pyCompareItems, Value.orderableItems]
      split
      · exact returns_pyCompareItems_iff c as bs
      · exact returns_pyCompare_iff c a b

end

/-! ## When a leaf is safe on a record -/

/-- Both of a pair of date-times can be moved to UTC. -/
def AlignSafe (stored value : Value) : Prop :=
  ∀ s v, stored = .datetime s → value = .datetime v → s.Convertible ∧ v.Convertible

/-- The members of a set can be aligned up to the first that equals the stored value. -/
def MembersSafe (stored : Value) : List Value → Prop
  | [] => True
  | v :: vs => AlignSafe stored v ∧ (systemMember stored v = .ok true ∨ MembersSafe stored vs)

/-- A text that reads as a date-time can be moved to UTC. -/
def TextDateSafe (node : Option Value) : Prop :=
  ∀ text d, node = some (.str text) → fromisoformat text = some d → d.Convertible

/-- A range comparison on a system key. -/
def SystemRangeSafe (stored value : Value) : Prop :=
  stored.isNone = false → stored.comparable value = true →
    (∃ s v, stored = .datetime s ∧ value = .datetime v ∧ s.Convertible ∧ v.Convertible) ∨
      ((∀ s, stored ≠ .datetime s) ∧ stored.orderable value = true)

/-- What must hold of the stored value of a system key. -/
def SystemLeafSafe (stored : Value) (op : Op) (operand : Value) : Prop :=
  match op with
  | .exists_ => True
  | .in_ => ∀ items, pyIter operand = .ok items → stored.isNone = false →
      MembersSafe stored (items.map systemValue)
  | .nin => ∀ items, pyIter operand = .ok items → stored.isNone = false →
      MembersSafe stored (items.map systemValue)
  | .eq => operand.isTuple = true ∨ AlignSafe stored (systemValue operand)
  | .ne => operand.isTuple = true ∨ AlignSafe stored (systemValue operand)
  | _ => operand.isNone = true ∨ SystemRangeSafe stored (systemValue operand)

/-- What must hold of the node at a metadata path. -/
def MetadataLeafSafe (node : Option Value) (op : Op) (operand : Value) : Prop :=
  match op, operand with
  | .eq, .dateLiteral _ => TextDateSafe node
  | .ne, .dateLiteral _ => TextDateSafe node
  | .eq, _ => True
  | .ne, _ => True
  | .in_, _ => True
  | .nin, _ => True
  | .exists_, _ => True
  | _, .dateLiteral d => TextDateSafe node ∧
      ((∃ text d', node = some (.str text) ∧ fromisoformat text = some d') → d.aware = true)
  | _, v => ∀ w, node = some w → w.comparable v = true → w.orderable v = true

/-- The leaf does not raise on the record. -/
def LeafSafe (ctx : CompileContext) (r : Record) (c : FilterClause) : Prop :=
  match c.systemKey?, c.metadataPath? with
  | some key, _ => SystemLeafSafe (resolveSystem ctx r key) c.op c.operand
  | none, some [] => True
  | none, some segs => MetadataLeafSafe (mdExtract segs r) c.op c.operand
  | none, none => True

section LeafLemmas

variable {stored value : Value}

theorem returns_toUtc_iff {d : DateTime} : Returns (toUtc d) ↔ d.Convertible := by
  unfold toUtc
  by_cases h : d.Convertible
  · obtain ⟨u, hu, -⟩ := d.toUtc_spec.1 h
    simp [hu, h]
  · simp [d.toUtc_spec.2 h, h]

theorem toUtc_offset {d u : DateTime} (h : toUtc d = .ok u) : u.offset = some 0 := by
  unfold toUtc at h
  cases hu : d.toUtc with
  | none => simp [hu] at h
  | some w =>
      simp only [hu, Except.ok.injEq] at h
      exact h ▸ (DateTime.toUtc_eq_some_iff.mp hu).2

/-- Alignment moves two date-times to UTC and leaves every other pair alone. -/
theorem alignDt_cases (stored value : Value) :
    (∃ s v, stored = .datetime s ∧ value = .datetime v) ∨
      (∀ s v, stored = .datetime s → value ≠ .datetime v) ∧
        alignDt stored value = .ok (stored, value) := by
  cases stored
  case datetime s =>
      cases value
      case datetime v => exact .inl ⟨s, v, rfl, rfl⟩
      all_goals exact .inr ⟨by simp, rfl⟩
  all_goals exact .inr ⟨by simp, rfl⟩

theorem returns_alignDt_iff : Returns (alignDt stored value) ↔ AlignSafe stored value := by
  rcases alignDt_cases stored value with ⟨s, v, rfl, rfl⟩ | ⟨hne, h⟩
  · have hpair : AlignSafe (.datetime s) (.datetime v) ↔ s.Convertible ∧ v.Convertible := by
      simp [AlignSafe]
    rw [hpair, alignDt, returns_bind]
    constructor
    · rintro ⟨s', hs', hv⟩
      obtain ⟨v', hv', -⟩ := returns_bind.mp hv
      exact ⟨returns_toUtc_iff.mp ⟨s', hs'⟩, returns_toUtc_iff.mp ⟨v', hv'⟩⟩
    · rintro ⟨hs, hv⟩
      obtain ⟨s', hs'⟩ := returns_toUtc_iff.mpr hs
      obtain ⟨v', hv'⟩ := returns_toUtc_iff.mpr hv
      exact ⟨s', hs', returns_bind.mpr ⟨v', hv', returns_ok _⟩⟩
  · rw [h]
    exact iff_of_true (returns_ok _) fun s v hs hv => absurd hv (hne s v hs)

theorem returns_eqAligned_iff : Returns (eqAligned stored value) ↔ AlignSafe stored value := by
  rw [eqAligned, returns_bind, ← returns_alignDt_iff]
  constructor
  · rintro ⟨p, hp, -⟩
    exact ⟨p, hp⟩
  · rintro ⟨p, hp⟩
    exact ⟨p, hp, returns_ok _⟩

theorem returns_notE {x : Except PyErr Bool} : Returns (notE x) ↔ Returns x := returns_map

/-- A pair that fails the gate holds no two date-times. -/
theorem alignSafe_of_not_comparable (h : stored.comparable value = false) :
    AlignSafe stored value := by
  rintro s v rfl rfl
  cases h

theorem returns_systemEq_iff : Returns (systemEq stored value) ↔ AlignSafe stored value := by
  unfold systemEq
  by_cases hn : stored.isNone = true
  · rw [if_pos hn]
    refine iff_of_true (returns_ok _) ?_
    rintro s v rfl
    cases hn
  · rw [if_neg hn]
    by_cases hc : stored.comparable value = true
    · simpa [hc] using returns_eqAligned_iff
    · rw [Bool.not_eq_true] at hc
      simpa [hc] using alignSafe_of_not_comparable hc

theorem returns_systemNe_iff : Returns (systemNe stored value) ↔ AlignSafe stored value := by
  have h : systemNe stored value = notE (systemEq stored value) := by
    unfold systemNe systemEq
    split
    · rfl
    · split <;> rfl
  rw [h, returns_notE, returns_systemEq_iff]

theorem returns_systemMember_iff : Returns (systemMember stored value) ↔ AlignSafe stored value := by
  unfold systemMember
  by_cases hc : stored.comparable value = true
  · simpa [hc] using returns_eqAligned_iff
  · rw [Bool.not_eq_true] at hc
    simpa [hc] using alignSafe_of_not_comparable hc

theorem returns_anyM_systemMember_iff {values : List Value} :
    Returns (values.anyM (systemMember stored)) ↔ MembersSafe stored values := by
  induction values with
  | nil => simp [MembersSafe, List.anyM, pure, Except.pure]
  | cons v vs ih =>
      rw [MembersSafe, ← returns_systemMember_iff, ← ih]
      cases hm : systemMember stored v with
      | error e =>
          rw [anyM_cons_error hm]
          simp
      | ok b =>
          cases b with
          | true =>
              rw [anyM_cons_ok_true hm]
              simp
          | false =>
              rw [anyM_cons_ok_false hm]
              simp

/-- Two date-times are compared after alignment, when both are aware. -/
theorem returns_range_datetimes_iff {c : Value.Cmp} {s v : DateTime} :
    Returns (alignDt (.datetime s) (.datetime v) >>= fun p => p.1.pyCompare c p.2) ↔
      s.Convertible ∧ v.Convertible := by
  have hsafe : AlignSafe (.datetime s) (.datetime v) ↔ s.Convertible ∧ v.Convertible := by
    simp [AlignSafe]
  rw [← hsafe, ← returns_alignDt_iff, returns_bind]
  constructor
  · rintro ⟨p, hp, -⟩
    exact ⟨p, hp⟩
  · rintro ⟨p, hp⟩
    refine ⟨p, hp, ?_⟩
    simp only [alignDt, bind_eq_ok, Except.ok.injEq] at hp
    obtain ⟨s', hs', v', hv', rfl⟩ := hp
    rw [returns_pyCompare_iff]
    simp [Value.orderable, DateTime.aware, toUtc_offset hs', toUtc_offset hv']

theorem returns_systemRange_iff {c : Value.Cmp} :
    Returns (systemRange c stored value) ↔ SystemRangeSafe stored value := by
  unfold systemRange SystemRangeSafe
  by_cases hn : stored.isNone = true
  · simp [hn]
  · by_cases hc : stored.comparable value = true
    · rw [if_neg hn]
      rw [Bool.not_eq_true] at hn
      simp only [hc, hn, Bool.not_true, Bool.false_eq_true, if_false, forall_const]
      rcases alignDt_cases stored value with ⟨s, v, rfl, rfl⟩ | ⟨hne, h⟩
      · exact returns_range_datetimes_iff.trans (by simp)
      · have hstored : ∀ s, stored ≠ .datetime s := by
          rintro s rfl
          cases value
          case datetime v => exact hne s v rfl rfl
          all_goals cases hc
        have hbind : (alignDt stored value >>= fun p => p.1.pyCompare c p.2) =
            stored.pyCompare c value := by rw [h]; rfl
        refine (iff_of_eq (congrArg Returns hbind)).trans ?_
        rw [returns_pyCompare_iff]
        constructor
        · exact fun ho => .inr ⟨hstored, ho⟩
        · rintro (⟨s, v, hs, -⟩ | ⟨-, ho⟩)
          · exact absurd hs (hstored s)
          · exact ho
    · simp [hn, hc]

/-- What a date comparison on a node does. -/
theorem mdDateCompare_cases (c : Option Value.Cmp) (node : Option Value) (d : DateTime) :
    (∃ text d', node = some (.str text) ∧ fromisoformat text = some d' ∧
        mdDateCompare c node d = toUtc d' >>= fun u => match c with
          | none => .ok (Value.datetimeEq u d)
          | some c => Value.cmpDatetime c u d) ∨
      (∀ text d', node = some (.str text) → fromisoformat text ≠ some d') ∧
        mdDateCompare c node d = .ok false := by
  match node with
  | some (.str text) =>
      cases ht : fromisoformat text with
      | none =>
          refine .inr ⟨?_, by simp [mdDateCompare, tryParseUtc, ht]; rfl⟩
          rintro text' d' heq
          cases heq
          simp [ht]
      | some d' =>
          refine .inl ⟨text, d', rfl, ht, ?_⟩
          simp only [mdDateCompare, tryParseUtc, ht]
          cases toUtc d' <;> rfl
  | none => exact .inr ⟨by simp, rfl⟩
  | some .none => exact .inr ⟨by simp, rfl⟩
  | some (.bool _) => exact .inr ⟨by simp, rfl⟩
  | some (.int _) => exact .inr ⟨by simp, rfl⟩
  | some (.float _) => exact .inr ⟨by simp, rfl⟩
  | some (.list _) => exact .inr ⟨by simp, rfl⟩
  | some (.tuple _) => exact .inr ⟨by simp, rfl⟩
  | some (.dict _) => exact .inr ⟨by simp, rfl⟩
  | some (.datetime _) => exact .inr ⟨by simp, rfl⟩
  | some (.dateLiteral _) => exact .inr ⟨by simp, rfl⟩

theorem returns_mdDateCompare_iff {c : Option Value.Cmp} {node : Option Value} {d : DateTime} :
    Returns (mdDateCompare c node d) ↔ TextDateSafe node ∧ (c ≠ none →
      (∃ text d', node = some (.str text) ∧ fromisoformat text = some d') → d.aware = true) := by
  rcases mdDateCompare_cases c node d with ⟨text, d', rfl, ht, heq⟩ | ⟨hno, heq⟩
  · have hsafe : TextDateSafe (some (.str text)) ↔ d'.Convertible := by
      constructor
      · exact fun h => h text d' rfl ht
      · rintro h text' d'' htext hd
        cases htext
        rw [ht] at hd
        cases hd
        exact h
    have hex : (∃ t e, some (Value.str text) = some (.str t) ∧ fromisoformat t = some e) ↔ True :=
      iff_of_true ⟨text, d', rfl, ht⟩ trivial
    rw [heq, hsafe, hex, returns_bind, ← returns_toUtc_iff]
    constructor
    · rintro ⟨u, hu, hr⟩
      refine ⟨⟨u, hu⟩, fun hc _ => ?_⟩
      cases c with
      | none => exact absurd rfl hc
      | some c =>
          by_contra hna
          rw [Bool.not_eq_true] at hna
          have hau : u.aware = true := by simp [DateTime.aware, toUtc_offset hu]
          simp [Value.cmpDatetime, hau, hna] at hr
    · rintro ⟨⟨u, hu⟩, hc⟩
      refine ⟨u, hu, ?_⟩
      cases c with
      | none => exact returns_ok _
      | some c =>
          have hd := hc (by simp) trivial
          have hau : u.aware = true := by simp [DateTime.aware, toUtc_offset hu]
          simp [Value.cmpDatetime, hau, hd]
  · rw [heq]
    refine iff_of_true (returns_ok _) ⟨fun text d' hn hd => absurd hd (hno text d' hn), ?_⟩
    rintro - ⟨text, d', hn, hd⟩
    exact absurd hd (hno text d' hn)

theorem returns_mdRangeCompare_iff {c : Value.Cmp} {node : Option Value} {v : Value} :
    Returns (mdRangeCompare c node v) ↔
      ∀ w, node = some w → w.comparable v = true → w.orderable v = true := by
  cases node with
  | none => simp [mdRangeCompare]
  | some w =>
      by_cases hc : w.comparable v = true
      · simpa [mdRangeCompare, hc] using returns_pyCompare_iff c w v
      · simp [mdRangeCompare, hc]

end LeafLemmas

/-! ## When the predicate returns -/

section Total

variable {ctx : CompileContext}

theorem returns_systemIn_iff {stored : Value} {values : List Value} :
    Returns (systemIn stored values) ↔ (stored.isNone = false → MembersSafe stored values) := by
  unfold systemIn
  cases hn : stored.isNone with
  | true => simp
  | false => simpa using returns_anyM_systemMember_iff

theorem returns_systemNin_iff {stored : Value} {values : List Value} :
    Returns (systemNin stored values) ↔ (stored.isNone = false → MembersSafe stored values) := by
  unfold systemNin
  cases hn : stored.isNone with
  | true => simp
  | false => simpa [returns_notE] using returns_anyM_systemMember_iff

theorem alignSafe_none (stored : Value) : AlignSafe stored .none := by
  rintro s v - hv
  cases hv

theorem compileSystemClause_range {key : String} {op : Op} {operand : Value} {c : Value.Cmp}
    (h : rangeOp? op = some c) :
    ∃ q, compileSystemClause ctx key op operand = .ok q ∧ ∀ r, Returns (q r) ↔
      (operand.isNone = true ∨ SystemRangeSafe (resolveSystem ctx r key) (systemValue operand)) := by
  have hne : op ≠ .eq ∧ op ≠ .ne ∧ op ≠ .in_ ∧ op ≠ .nin ∧ op ≠ .exists_ := by
    refine ⟨?_, ?_, ?_, ?_, ?_⟩ <;> rintro rfl <;> cases h
  have heq : compileSystemClause ctx key op operand =
      if operand.isNone then .ok fun r => .ok (resolveSystem ctx r key).isNone
      else .ok fun r => systemRange c (resolveSystem ctx r key) (systemValue operand) := by
    cases op <;> simp_all [compileSystemClause]
  cases hn : operand.isNone with
  | true => exact ⟨_, by rw [heq, hn]; rfl, fun r => by simp⟩
  | false => exact ⟨_, by rw [heq, hn]; rfl, fun r => by simpa using returns_systemRange_iff⟩

theorem compileSystemClause_spec {key : String} {op : Op} {operand : Value} (hop : op ∈ clauseOps)
    (htuple : (op = .in_ ∨ op = .nin) → ∃ xs, operand = .tuple xs) :
    ∃ q, compileSystemClause ctx key op operand = .ok q ∧
      ∀ r, Returns (q r) ↔ SystemLeafSafe (resolveSystem ctx r key) op operand := by
  cases op
  case exists_ => exact ⟨_, rfl, fun r => by simp [SystemLeafSafe]⟩
  case in_ =>
      obtain ⟨xs, rfl⟩ := htuple (.inl rfl)
      refine ⟨_, rfl, fun r => ?_⟩
      simpa [SystemLeafSafe, pyIter] using returns_systemIn_iff
  case nin =>
      obtain ⟨xs, rfl⟩ := htuple (.inr rfl)
      refine ⟨_, rfl, fun r => ?_⟩
      simpa [SystemLeafSafe, pyIter] using returns_systemNin_iff
  case eq =>
      cases ht : operand.isTuple with
      | true => exact ⟨fun _ => .ok false, by simp [compileSystemClause, ht], fun r => by
          simp [SystemLeafSafe, ht]⟩
      | false =>
          cases hn : operand.isNone with
          | true =>
              refine ⟨fun r => .ok (resolveSystem ctx r key).isNone,
                by simp [compileSystemClause, ht, hn], fun r => ?_⟩
              obtain rfl : operand = .none := by cases operand <;> first | rfl | cases hn
              exact iff_of_true (returns_ok _) (.inr (alignSafe_none _))
          | false =>
              refine ⟨fun r => systemEq (resolveSystem ctx r key) (systemValue operand),
                by simp [compileSystemClause, ht, hn], fun r => ?_⟩
              simpa [SystemLeafSafe, ht] using returns_systemEq_iff
  case ne =>
      cases ht : operand.isTuple with
      | true => exact ⟨fun _ => .ok true, by simp [compileSystemClause, ht], fun r => by
          simp [SystemLeafSafe, ht]⟩
      | false =>
          cases hn : operand.isNone with
          | true =>
              refine ⟨fun r => .ok !(resolveSystem ctx r key).isNone,
                by simp [compileSystemClause, ht, hn], fun r => ?_⟩
              obtain rfl : operand = .none := by cases operand <;> first | rfl | cases hn
              exact iff_of_true (returns_ok _) (.inr (alignSafe_none _))
          | false =>
              refine ⟨fun r => systemNe (resolveSystem ctx r key) (systemValue operand),
                by simp [compileSystemClause, ht, hn], fun r => ?_⟩
              simpa [SystemLeafSafe, ht] using returns_systemNe_iff
  case gt => exact compileSystemClause_range rfl
  case gte => exact compileSystemClause_range rfl
  case lt => exact compileSystemClause_range rfl
  case lte => exact compileSystemClause_range rfl
  all_goals exact absurd hop (by decide)

theorem returns_mdEqFn_iff {segs : List String} {operand : Value} {r : Record} :
    Returns (mdEqFn segs operand r) ↔
      ∀ d, operand = .dateLiteral d → TextDateSafe (mdExtract segs r) := by
  cases operand
  case dateLiteral d =>
      rw [mdEqFn, returns_mdDateCompare_iff]
      simp
  all_goals simp [mdEqFn]

theorem compileMetadataPath_range {segs : List String} {op : Op} {operand : Value} {c : Value.Cmp}
    (h : rangeOp? op = some c) :
    ∃ q, compileMetadataPath segs op operand = .ok q ∧
      ∀ r, Returns (q r) ↔ MetadataLeafSafe (mdExtract segs r) op operand := by
  refine ⟨mdRangeFn segs c operand, ?_, fun r => ?_⟩
  · cases op <;> simp only [rangeOp?, reduceCtorEq] at h <;> cases h <;> rfl
  have hsafe : ∀ node : Option Value, MetadataLeafSafe node op operand ↔
      match operand with
      | .dateLiteral d => TextDateSafe node ∧
          ((∃ text d', node = some (.str text) ∧ fromisoformat text = some d') → d.aware = true)
      | v => ∀ w, node = some w → w.comparable v = true → w.orderable v = true := by
    intro node
    cases op <;> simp only [rangeOp?, reduceCtorEq] at h <;> cases operand <;> rfl
  rw [hsafe]
  cases operand
  case dateLiteral d =>
      rw [mdRangeFn, returns_mdDateCompare_iff]
      simp
  all_goals exact returns_mdRangeCompare_iff

theorem compileMetadataPath_spec {segs : List String} {op : Op} {operand : Value}
    (hop : op ∈ clauseOps) (htuple : (op = .in_ ∨ op = .nin) → ∃ xs, operand = .tuple xs) :
    ∃ q, compileMetadataPath segs op operand = .ok q ∧
      ∀ r, Returns (q r) ↔ MetadataLeafSafe (mdExtract segs r) op operand := by
  cases op
  case exists_ => exact ⟨_, rfl, fun r => by simp [MetadataLeafSafe]⟩
  case in_ =>
      obtain ⟨xs, rfl⟩ := htuple (.inl rfl)
      by_cases hx : (Value.tuple xs).truthy = true
      · exact ⟨_, by simp only [compileMetadataPath, hx]; rfl, fun r => by simp [MetadataLeafSafe]⟩
      · exact ⟨_, by simp only [compileMetadataPath, hx]; rfl, fun r => by simp [MetadataLeafSafe]⟩
  case nin =>
      obtain ⟨xs, rfl⟩ := htuple (.inr rfl)
      by_cases hx : (Value.tuple xs).truthy = true
      · exact ⟨_, by simp only [compileMetadataPath, hx]; rfl, fun r => by simp [MetadataLeafSafe]⟩
      · exact ⟨_, by simp only [compileMetadataPath, hx]; rfl, fun r => by simp [MetadataLeafSafe]⟩
  case eq =>
      have hsafe : ∀ node : Option Value, MetadataLeafSafe node .eq operand ↔
          ∀ d, operand = .dateLiteral d → TextDateSafe node := by
        intro node
        cases operand <;> simp [MetadataLeafSafe]
      cases hn : operand.isNone with
      | true =>
          obtain rfl : operand = .none := by cases operand <;> first | rfl | cases hn
          exact ⟨_, rfl, fun r => by simp [MetadataLeafSafe]⟩
      | false =>
          refine ⟨mdEqFn segs operand, by simp [compileMetadataPath, hn], fun r => ?_⟩
          rw [hsafe, returns_mdEqFn_iff]
  case ne =>
      have hsafe : ∀ node : Option Value, MetadataLeafSafe node .ne operand ↔
          ∀ d, operand = .dateLiteral d → TextDateSafe node := by
        intro node
        cases operand <;> simp [MetadataLeafSafe]
      cases hn : operand.isNone with
      | true =>
          obtain rfl : operand = .none := by cases operand <;> first | rfl | cases hn
          exact ⟨_, rfl, fun r => by simp [MetadataLeafSafe]⟩
      | false =>
          refine ⟨fun r => notE (mdEqFn segs operand r), by simp [compileMetadataPath, hn],
            fun r => ?_⟩
          rw [hsafe, returns_notE, returns_mdEqFn_iff]
  case gt => exact compileMetadataPath_range rfl
  case gte => exact compileMetadataPath_range rfl
  case lt => exact compileMetadataPath_range rfl
  case lte => exact compileMetadataPath_range rfl
  all_goals exact absurd hop (by decide)

/-- A clause of the promised shape compiles, and its predicate returns exactly on the
records where the leaf is safe. -/
theorem compilePythonClause_spec (hsplit : ctx.onUnsupported = .split) {c : FilterClause}
    (hc : OpShape c) : ∃ q, compilePythonClause ctx c = .ok q ∧
      ∀ r, Returns (q r) ↔ LeafSafe ctx r c := by
  have hplaceholder : ∀ reason, pythonUnsupported ctx c reason = .ok fun _ => .ok true := by
    intro reason
    simp [pythonUnsupported, CompileContext.isSplit, hsplit]
  unfold compilePythonClause LeafSafe
  cases hs : c.systemKey? with
  | some key => exact compileSystemClause_spec hc.1 hc.2
  | none =>
      cases hm : c.metadataPath? with
      | none => exact ⟨_, hplaceholder _, fun r => by simp⟩
      | some segs =>
          cases segs with
          | nil =>
              by_cases heq : c.op = .eq
              · exact ⟨_, by simp only [compileMetadataClause, heq]; rfl, fun r => by simp⟩
              · exact ⟨_, by simp only [compileMetadataClause, heq]; exact hplaceholder _,
                  fun r => by simp⟩
          | cons seg segs => exact compileMetadataPath_spec hc.1 hc.2

/-- One step of the walk: the children's predicates, from those of each child. -/
theorem exists_compilePythonNodes {cs : List Ast} {safe : Record → FilterClause → Prop}
    (h : ∀ c ∈ cs, ∃ q, compilePythonNode ctx c = .ok q ∧
      ∀ r, (∀ l ∈ c.leaves, safe r l) → Returns (q r)) :
    ∃ qs, compilePythonNodes ctx cs = .ok qs ∧
      ∀ r, (∀ l ∈ cs.flatMap Ast.leaves, safe r l) → ∀ q ∈ qs, Returns (q r) := by
  induction cs with
  | nil => exact ⟨[], rfl, by simp⟩
  | cons c cs ih =>
      obtain ⟨q, hq, hqr⟩ := h c List.mem_cons_self
      obtain ⟨qs, hqs, hqsr⟩ := ih fun d hd => h d (List.mem_cons_of_mem _ hd)
      refine ⟨q :: qs, by rw [compilePythonNodes, hq, hqs]; rfl, fun r hr => ?_⟩
      rw [List.flatMap_cons, List.forall_mem_append] at hr
      exact List.forall_mem_cons.mpr ⟨hqr r hr.1, hqsr r hr.2⟩

/-- Over a tree, the predicate returns where the predicates of its leaves do. -/
theorem compilePythonNode_returns {safe : Record → FilterClause → Prop} {t : Ast}
    (h : t.wellFormed = true)
    (hclause : ∀ c ∈ t.leaves, ∃ q, compilePythonClause ctx c = .ok q ∧ ∀ r, safe r c → Returns (q r)) :
    ∃ p, compilePythonNode ctx t = .ok p ∧
      ∀ r, (∀ c ∈ t.leaves, safe r c) → Returns (p r) := by
  revert hclause
  refine Ast.induct_wellFormed (fun c hc => ?_) (fun cs _ ih hc => ?_) (fun cs _ ih hc => ?_)
    (fun c _ ih hc => ?_) t h
  · obtain ⟨q, hq, hr⟩ := hc c (by simp)
    exact ⟨q, hq, fun r hsafe => hr r (hsafe c (by simp))⟩
  · rw [Ast.leaves_node] at hc
    obtain ⟨qs, hqs, hr⟩ := exists_compilePythonNodes fun c hcc =>
      ih c hcc fun l hl => hc l (List.mem_flatMap.mpr ⟨c, hcc, hl⟩)
    refine ⟨_, by rw [compilePythonNode, hqs]; rfl, fun r hsafe => ?_⟩
    rw [Ast.leaves_node] at hsafe
    exact returns_allM fun q hq => hr r hsafe q hq
  · rw [Ast.leaves_node] at hc
    obtain ⟨qs, hqs, hr⟩ := exists_compilePythonNodes fun c hcc =>
      ih c hcc fun l hl => hc l (List.mem_flatMap.mpr ⟨c, hcc, hl⟩)
    refine ⟨_, by rw [compilePythonNode, hqs]; rfl, fun r hsafe => ?_⟩
    rw [Ast.leaves_node] at hsafe
    exact returns_anyM fun q hq => hr r hsafe q hq
  · obtain ⟨q, hq, hr⟩ := ih (by simpa using hc)
    refine ⟨fun r => notE (q r), ?_, fun r hsafe => ?_⟩
    · rw [compilePythonNode, hq]
      · rfl
      · simp
      · simp
    · rw [returns_notE]
      exact hr r (by simpa using hsafe)

/-- **When the in-memory predicate returns.**  On the AST of an accepted document the
predicate compiles; on a record where every leaf is safe it returns a bool, and the
predicate of each leaf by itself returns exactly on the records where it is safe. -/
theorem predicate_returns {raw f : RecallFilter} {t : Ast} (hvalid : raw.validate = .ok f)
    (hparse : parseToAst f = .ok t) (hsplit : ctx.onUnsupported = .split) :
    (∃ p, compilePython ctx t = .ok p ∧
      ∀ r, (∀ c ∈ t.leaves, LeafSafe ctx r c) → Returns (p r)) ∧
    ∀ c ∈ t.leaves, ∃ q, compilePython ctx (.node .and [.clause c]) = .ok q ∧
      ∀ r, Returns (q r) ↔ LeafSafe ctx r c := by
  have hs := ((parseToAst_iff f (RecallFilter.valid_of_validate hvalid)).value t hparse).2
  have hshape : ∀ c ∈ t.leaves, OpShape c := by simpa using hs.shaped
  refine ⟨compilePythonNode_returns (hs.wellFormed t (by simp)) fun c hc => ?_, fun c hc => ?_⟩
  · obtain ⟨q, hq, hr⟩ := compilePythonClause_spec hsplit (hshape c hc)
    exact ⟨q, hq, fun r => (hr r).mpr⟩
  obtain ⟨q, hq, hr⟩ := compilePythonClause_spec hsplit (hshape c hc)
  refine ⟨fun r => [q].allM fun fn => fn r, ?_, fun r => ?_⟩
  · rw [compilePython, compilePythonNode, compilePythonNodes, compilePythonNodes, compilePythonNode,
      hq]
    rfl
  · show Returns ([q].allM fun fn => fn r) ↔ LeafSafe ctx r c
    rw [allM_singleton, hr]

/-- A split-mode context with the identity mapping. -/
def splitContext : CompileContext where
  backendTarget := "khora_chunks"
  tableAlias := none
  paramNamespace := "f"
  fieldMapping := none
  schemaCapabilities := ⟨false, false, false, false⟩
  onUnsupported := .split

theorem predicate_returns_dueFilter : ∃ f t, dueFilter.validate = .ok f ∧ parseToAst f = .ok t ∧
    (∃ p, compilePython splitContext t = .ok p ∧
      ∀ r, (∀ c ∈ t.leaves, LeafSafe splitContext r c) → Returns (p r)) ∧
    ∀ c ∈ t.leaves, ∃ q, compilePython splitContext (.node .and [.clause c]) = .ok q ∧
      ∀ r, Returns (q r) ↔ LeafSafe splitContext r c := by
  refine ⟨_, _, rfl, rfl, ?_⟩
  exact @predicate_returns splitContext dueFilter _ _ rfl rfl rfl

/-- `metadata.k` greater than null. -/
def nullRangeFilter : RecallFilter :=
  { emptyFilter with foldedPredicates := [("metadata.k", .dict [(.str "$gt", .none)])] }

/-- `metadata.k` equal to an operand. -/
def equalFilter (operand : Value) : RecallFilter :=
  { emptyFilter with foldedPredicates := [("metadata.k", .dict [(.str "$eq", operand)])] }

/-- A record with only a metadata blob. -/
def metadataRecord (blob : List (Key × Value)) : Record where
  attr := fun k => if k = "metadata" then some (.dict blob) else none
  sourceDocument := none
  item := none

/-- A stored null passes the type gate against a null operand, and `None > None` raises. -/
theorem nullRangeFilter_raises : ∃ f t p, nullRangeFilter.validate = .ok f ∧
    parseToAst f = .ok t ∧ compilePython splitContext t = .ok p ∧
    p (metadataRecord [(.str "k", .none)]) = .error .typeError :=
  ⟨_, _, _, rfl, rfl, rfl, rfl⟩

end Total

end Khora
