import Khora.Filter.ChunkRow

/-!
# Cypher predicates over chunk nodes

`compile_cypher` pushes the system keys of a filter to Neo4j.  A chunk node holds every
date as the ISO text its writer made of it, and the compiler binds every date operand
as its ISO text, so dates are compared as texts.

* `cypher_exact` — on a chunk whose dates are in UTC the predicate over system keys is
  true exactly where the in-memory filter is, and in split mode no chunk of a filter is
  lost; on a chunk with another date some filter over its key tells the two apart.
* `offsetFilter_differs` — an instant stored under another offset.
-/

namespace Khora

open Calendar (DateTime)
open Fallible Ternary

/-! ## Chunks and their nodes -/

/-- The fields of a `TemporalChunk` that a filter reads. -/
structure TemporalChunk where
  dates : DateKey → Option DateTime
  strings : StringKey → Option String
  metadata : List (Key × Value)

namespace TemporalChunk

variable (chunk : TemporalChunk)

def value : SystemKey → Value
  | .date k => match chunk.dates k with
      | some d => .datetime d
      | none => .none
  | .string k => match chunk.strings k with
      | some s => .str s
      | none => .none

/-- The chunk as the in-memory filter reads it. -/
def record : Record where
  attr := fun name =>
    if name = "metadata" then some (.dict chunk.metadata)
    else (SystemKey.ofName? name).map chunk.value
  sourceDocument := none
  item := none

end TemporalChunk

/-- The text properties of a node; an absent property is null. -/
abbrev ChunkNode := String → Option String

/-- `create_chunk_node`, and each row of `create_chunk_nodes_batch`: the filterable
properties.  A missing `created_at` is written as the time `now` of the write. -/
def createChunkNode (chunk : TemporalChunk) (now : DateTime) : ChunkNode := fun name =>
  match SystemKey.ofName? name with
  | some (.date .createdAt) => some ((chunk.dates .createdAt).getD now).isoformat
  | some (.date k) => (chunk.dates k).map DateTime.isoformat
  | some (.string k) => chunk.strings k
  | none => none

/-! ## Predicates -/

inductive CypherCond where
  | const (b : Bool)
  | isNull (prop : String)
  | isNotNull (prop : String)
  | equals (prop : String) (v : Value)
  | differs (prop : String) (v : Value)
  | compare (c : Value.Cmp) (prop : String) (v : Value)
  | member (prop : String) (vs : List Value)
  /-- `coalesce(e, false)` -/
  | coalesce (e : CypherCond)
  | not (e : CypherCond)
  | all (es : List CypherCond)
  | any (es : List CypherCond)

/-- `property = $value`: values of two types differ, and null makes it unknown. -/
def cypherEquals (p : Option String) (v : Value) : Truth :=
  match p, v with
  | none, _ => none
  | some _, .none => none
  | some s, .str t => some (s == t)
  | some _, _ => some false

/-- `property < $value` and so on: unknown unless both are texts. -/
def cypherCompare (c : Value.Cmp) (p : Option String) (v : Value) : Truth :=
  match p, v with
  | some s, .str t => some (Value.cmpString c s t)
  | _, _ => none

section Eval

variable (node : ChunkNode)

mutual

def CypherCond.eval : CypherCond → Truth
  | .const b => some b
  | .isNull p => some (node p).isNone
  | .isNotNull p => some (node p).isSome
  | .equals p v => cypherEquals (node p) v
  | .differs p v => Ternary.neg (cypherEquals (node p) v)
  | .compare c p v => cypherCompare c (node p) v
  | .member p vs => Ternary.any (vs.map (cypherEquals (node p)))
  | .coalesce e => Ternary.coalesce e.eval false
  | .not e => Ternary.neg e.eval
  | .all es => Ternary.all (CypherCond.evals es)
  | .any es => Ternary.any (CypherCond.evals es)

def CypherCond.evals : List CypherCond → List Truth
  | [] => []
  | e :: es => e.eval :: CypherCond.evals es

end

theorem CypherCond.evals_eq (es : List CypherCond) :
    CypherCond.evals node es = es.map (CypherCond.eval node) := by
  induction es with
  | nil => rfl
  | cons e es ih => rw [CypherCond.evals, ih, List.map_cons]

end Eval

/-! ## The compiler -/

mutual

/-- `_system_value`: dates bind as ISO text, a tuple as a list. -/
def cypherValue : Value → Value
  | .dateLiteral d => .str d.isoformat
  | .datetime d => .str d.isoformat
  | .tuple items => .list (cypherValues items)
  | v => v

def cypherValues : List Value → List Value
  | [] => []
  | v :: vs => cypherValue v :: cypherValues vs

end

/-- The constants and connectives of Cypher. -/
def cypherTarget : Target CypherCond where
  matchAll := .const true
  matchNone := .const false
  all := .all
  any := .any
  neg := .not

section Compile

variable (ctx : CompileContext)

/-- `_Builder._compile_system_clause` -/
def cypherSystemClause (key : String) (op : Op) (operand : Value) : Except PyErr CypherCond :=
  let prop := ctx.physical key
  match op with
  | .exists_ => .ok (.const operand.truthy)
  | .in_ =>
      if !operand.truthy then .ok (.const false)
      else do
        let items ← pyIter operand
        .ok (.coalesce (.member prop (items.map cypherValue)))
  | .nin =>
      if !operand.truthy then .ok (.const true)
      else do
        let items ← pyIter operand
        .ok (.any [.isNull prop, .not (.member prop (items.map cypherValue))])
  | op =>
      if operand.isNone then
        if op = .ne then .ok (.isNotNull prop) else .ok (.isNull prop)
      else if op = .ne then .ok (.any [.isNull prop, .differs prop (cypherValue operand)])
      else if op = .eq then .ok (.coalesce (.equals prop (cypherValue operand)))
      else match rangeOp? op with
        | some c => .ok (.coalesce (.compare c prop (cypherValue operand)))
        | none => .error .keyError

/-- The complement of `_Builder._clause_unconsumable`: only system keys are pushed. -/
def cypherConsumable (c : FilterClause) : Bool := c.systemKey?.isSome

/-- `_Builder.compile_clause` -/
def compileCypherClause (c : FilterClause) : Except PyErr (Emitted CypherCond) :=
  match c.systemKey?, c.path with
  | some key, _ => c.emit <$> cypherSystemClause ctx key c.op c.operand
  | none, "metadata" :: _ =>
      cypherTarget.unsupported ctx c "metadata predicates are not pushed down to Cypher"
  | none, _ =>
      cypherTarget.unsupported ctx c "path is neither a system key nor a metadata path"

/-- `compile_cypher`: every path that some leaf pushed is reported. -/
def compileCypher (t : Ast) : Except PyErr (CompiledFilter CypherCond) := do
  let e ← compileNode cypherTarget.recording ctx.isSplit cypherConsumable (compileCypherClause ctx) t
  .ok ⟨e.predicate, e.consumed⟩

end Compile

/-! ## System leaves -/

/-- The text property that a value is written as. -/
def nodeText : Value → Option String
  | .str s => some s
  | .datetime d => some d.isoformat
  | _ => none

/-- The operands of a system leaf have the type of its column, list members included. -/
def CypherOperandOk (k : SystemKey) (op : Op) (operand : Value) : Prop :=
  match op with
  | .exists_ => True
  | .in_ => ∀ items, operand = .tuple items → ∀ x ∈ items, k.Typed x
  | .nin => ∀ items, operand = .tuple items → ∀ x ∈ items, k.Typed x
  | .eq => operand.isNone = true ∨ k.Typed operand ∨
      ∃ items, operand = .tuple items ∧ ∀ x ∈ items, k.Typed x
  | .ne => operand.isNone = true ∨ k.Typed operand ∨
      ∃ items, operand = .tuple items ∧ ∀ x ∈ items, k.Typed x
  | _ => operand.isNone = true ∨ k.Typed operand

section Leaf

variable {k : SystemKey} {stored : Value} {op : Op} {operand : Value}

theorem CypherOperandOk.system (h : CypherOperandOk k op operand) : SystemOperandOk k op operand := by
  cases op
  case eq =>
      rcases h with h | h | ⟨items, rfl, -⟩
      · exact Or.inr (Or.inl h)
      · exact Or.inr (Or.inr h)
      · exact Or.inl rfl
  case ne =>
      rcases h with h | h | ⟨items, rfl, -⟩
      · exact Or.inr (Or.inl h)
      · exact Or.inr (Or.inr h)
      · exact Or.inl rfl
  all_goals exact h

theorem isNone_nodeText (hs : k.Holds stored) : (nodeText stored).isNone = stored.isNone := by
  rcases hs with rfl | hs
  · rfl
  · cases k with
    | date k =>
        obtain ⟨d, rfl, -⟩ := hs
        rfl
    | string k =>
        obtain ⟨s, rfl⟩ := hs
        rfl

/-- Cypher compares the texts as the column's order compares the values. -/
theorem cypher_typed (ho : k.Typed operand) (hs : k.Holds stored) (hne : stored.isNone = false) :
    cypherEquals (nodeText stored) (cypherValue operand) =
        some (typedEq stored (systemValue operand)) ∧
      ∀ c, cypherCompare c (nodeText stored) (cypherValue operand) =
        some (c.decide (typedLt stored (systemValue operand)) (typedLt (systemValue operand) stored)) := by
  rcases hs with rfl | hs
  · simp [Value.isNone] at hne
  · cases k with
    | date k =>
        obtain ⟨d, hd, hoff⟩ := ho
        obtain ⟨e, rfl, he⟩ := hs
        have hval : cypherValue operand = .str d.isoformat := by
          cases operand <;> simp_all [systemValue, cypherValue]
        rw [hd, hval]
        refine ⟨congrArg some (isoformat_beq he hoff), fun c => ?_⟩
        have hlt : decide (e.isoformat < d.isoformat) = decide (e.instant < d.instant) :=
          decide_eq_decide.mpr (DateTime.isoformat_lt_iff he hoff)
        have hgt : decide (d.isoformat < e.isoformat) = decide (d.instant < e.instant) :=
          decide_eq_decide.mpr (DateTime.isoformat_lt_iff hoff he)
        simp only [nodeText, cypherCompare, Value.cmpString, typedLt, hlt, hgt]
    | string k =>
        obtain ⟨s, rfl⟩ := ho
        obtain ⟨t, rfl⟩ := hs
        exact ⟨rfl, fun c => rfl⟩

/-- A text never equals a list. -/
theorem cypherEquals_tuple (hne : stored.isNone = false) (hs : k.Holds stored) (items : List Value) :
    cypherEquals (nodeText stored) (cypherValue (.tuple items)) = some false := by
  rcases hs with rfl | hs
  · simp [Value.isNone] at hne
  · cases k with
    | date k =>
        obtain ⟨d, rfl, -⟩ := hs
        rfl
    | string k =>
        obtain ⟨s, rfl⟩ := hs
        rfl

theorem any_cypherEquals {items : List Value} (h : ∀ x ∈ items, k.Typed x) (hs : k.Holds stored)
    (hne : stored.isNone = false) :
    Ternary.any ((items.map cypherValue).map (cypherEquals (nodeText stored))) =
      some (items.any fun x => typedEq stored (systemValue x)) := by
  have hmap : (items.map cypherValue).map (cypherEquals (nodeText stored)) =
      items.map fun x => some (typedEq stored (systemValue x)) := by
    rw [List.map_map]
    apply List.map_congr_left
    intro x hx
    exact (cypher_typed (h x hx) hs hne).1
  rw [hmap, Ternary.any_some]

/-- On a null property membership is unknown, or false in the empty list. -/
theorem any_cypherEquals_none (vs : List Value) :
    Ternary.any (vs.map (cypherEquals none)) ≠ some true := by
  intro h
  obtain ⟨x, hx, htrue⟩ := Ternary.any_eq_true.mp h
  obtain ⟨v, -, rfl⟩ := List.mem_map.mp hx
  cases htrue

theorem coalesce_of_ne_true {x : Truth} (h : x ≠ some true) :
    Ternary.coalesce x false = some false := by
  rcases x with _ | (_ | _)
  · rfl
  · rfl
  · exact absurd rfl h

variable {ctx : CompileContext} {key : String} {node : ChunkNode}

attribute [local simp] CypherCond.eval CypherCond.evals cypherSystemClause

/-- `$in` on a text property. -/
theorem cypher_in_value (hprop : node (ctx.physical key) = nodeText stored) (hs : k.Holds stored)
    {items : List Value} (h : ∀ x ∈ items, k.Typed x) :
    ∃ e, cypherSystemClause ctx key .in_ (.tuple items) = .ok e ∧
      e.eval node = some (!stored.isNone && items.any fun x => typedEq stored (systemValue x)) := by
  cases hi : items with
  | nil => exact ⟨.const false, rfl, by simp [CypherCond.eval]⟩
  | cons x xs =>
      rw [← hi]
      refine ⟨.coalesce (.member (ctx.physical key) (items.map cypherValue)), ?_, ?_⟩
      · rw [hi]
        rfl
      · rw [CypherCond.eval, CypherCond.eval, hprop]
        cases hn : stored.isNone with
        | true =>
            rw [isNone_iff.mp hn]
            exact coalesce_of_ne_true (any_cypherEquals_none _)
        | false => rw [any_cypherEquals h hs hn]; rfl

/-- `$nin` keeps the nodes without the property. -/
theorem cypher_nin_value (hprop : node (ctx.physical key) = nodeText stored) (hs : k.Holds stored)
    {items : List Value} (h : ∀ x ∈ items, k.Typed x) :
    ∃ e, cypherSystemClause ctx key .nin (.tuple items) = .ok e ∧
      e.eval node = some (stored.isNone || !(items.any fun x => typedEq stored (systemValue x))) := by
  cases hi : items with
  | nil => exact ⟨.const true, rfl, by simp [CypherCond.eval]⟩
  | cons x xs =>
      rw [← hi]
      refine ⟨.any [.isNull (ctx.physical key),
        .not (.member (ctx.physical key) (items.map cypherValue))], ?_, ?_⟩
      · rw [hi]
        rfl
      · simp only [CypherCond.eval, CypherCond.evals, hprop, isNone_nodeText hs]
        cases hn : stored.isNone with
        | true => rfl
        | false =>
            rw [any_cypherEquals h hs hn]
            simp

/-- `$ne` keeps the nodes without the property. -/
theorem cypher_ne_value (hprop : node (ctx.physical key) = nodeText stored) (hs : k.Holds stored)
    (hnone : operand.isNone = false) {b : Bool}
    (heq : stored.isNone = false →
      cypherEquals (nodeText stored) (cypherValue operand) = some b) :
    ∃ e, cypherSystemClause ctx key .ne operand = .ok e ∧
      e.eval node = some (stored.isNone || !b) := by
  refine ⟨.any [.isNull (ctx.physical key), .differs (ctx.physical key) (cypherValue operand)], ?_, ?_⟩
  · simp [cypherSystemClause, hnone]
  · simp only [CypherCond.eval, CypherCond.evals, hprop, isNone_nodeText hs]
    cases hn : stored.isNone with
    | true => rfl
    | false => simp [heq hn]

theorem cypher_eq_value (hprop : node (ctx.physical key) = nodeText stored)
    (hnone : operand.isNone = false) {b : Bool}
    (heq : stored.isNone = false →
      cypherEquals (nodeText stored) (cypherValue operand) = some b) :
    ∃ e, cypherSystemClause ctx key .eq operand = .ok e ∧
      e.eval node = some (!stored.isNone && b) := by
  refine ⟨.coalesce (.equals (ctx.physical key) (cypherValue operand)), ?_, ?_⟩
  · simp [cypherSystemClause, hnone]
  · rw [CypherCond.eval, CypherCond.eval, hprop]
    cases hn : stored.isNone with
    | true =>
        rw [isNone_iff.mp hn]
        rfl
    | false => rw [heq hn]; rfl

theorem cypher_range_value (hprop : node (ctx.physical key) = nodeText stored) (hs : k.Holds stored)
    {c : Value.Cmp} (hc : rangeOp? op = some c) (ho : k.Typed operand) :
    ∃ e, cypherSystemClause ctx key op operand = .ok e ∧
      e.eval node = some (!stored.isNone && c.decide (typedLt stored (systemValue operand))
        (typedLt (systemValue operand) stored)) := by
  obtain ⟨-, hnone⟩ := ho.not_tuple_none
  refine ⟨.coalesce (.compare c (ctx.physical key) (cypherValue operand)), ?_, ?_⟩
  · cases op <;> cases hc <;> simp [cypherSystemClause, rangeOp?, hnone]
  · rw [CypherCond.eval, CypherCond.eval, hprop]
    cases hn : stored.isNone with
    | true =>
        rw [isNone_iff.mp hn]
        rfl
    | false => rw [(cypher_typed ho hs hn).2 c]; rfl

/-- A null operand asks for the absent property; only `$ne` asks for a present one. -/
theorem cypher_null_value (hprop : node (ctx.physical key) = nodeText stored) (hs : k.Holds stored)
    (hop : op = .eq ∨ op = .ne ∨ (rangeOp? op).isSome) (hnone : operand.isNone = true) :
    ∃ e, cypherSystemClause ctx key op operand = .ok e ∧
      e.eval node = some (if op = .ne then !stored.isNone else stored.isNone) := by
  have hsome : (nodeText stored).isSome = !stored.isNone := by
    rw [← isNone_nodeText hs]
    cases nodeText stored <;> rfl
  by_cases hne : op = .ne
  · refine ⟨.isNotNull (ctx.physical key), ?_, ?_⟩
    · simp [cypherSystemClause, hne, hnone]
    · rw [CypherCond.eval, hprop, hsome, if_pos hne]
  · refine ⟨.isNull (ctx.physical key), ?_, ?_⟩
    · cases op <;> simp_all [cypherSystemClause, rangeOp?]
    · rw [CypherCond.eval, hprop, isNone_nodeText hs, if_neg hne]

/-- **A system leaf is exact on the written text.** -/
theorem cypherSystemClause_value (hprop : node (ctx.physical key) = nodeText stored)
    (hs : k.Holds stored) (hop : op ∈ clauseOps)
    (htuple : op = .in_ ∨ op = .nin → ∃ xs, operand = .tuple xs)
    (hok : CypherOperandOk k op operand) :
    ∃ e, cypherSystemClause ctx key op operand = .ok e ∧
      e.eval node = some (systemTruth stored op operand) := by
  have hrange : ∀ c, rangeOp? op = some c → (operand.isNone = true ∨ k.Typed operand) →
      ∃ e, cypherSystemClause ctx key op operand = .ok e ∧
        e.eval node = some (systemTruth stored op operand) := by
    intro c hc hopd
    rcases hopd with hn | ho
    · obtain ⟨e, he, hv⟩ := cypher_null_value hprop hs
        (Or.inr (Or.inr (by rw [hc]; rfl))) hn
      refine ⟨e, he, hv.trans ?_⟩
      cases op <;> cases hc <;> simp [systemTruth, hn]
    · obtain ⟨e, he, hv⟩ := cypher_range_value hprop hs hc ho
      obtain ⟨ht, hn⟩ := ho.not_tuple_none
      refine ⟨e, he, hv.trans ?_⟩
      cases op <;> cases hc <;> simp [systemTruth, rangeOp?, hn]
  cases op
  case exists_ => exact ⟨_, rfl, rfl⟩
  case in_ =>
      obtain ⟨xs, rfl⟩ := htuple (.inl rfl)
      exact cypher_in_value hprop hs (hok xs rfl)
  case nin =>
      obtain ⟨xs, rfl⟩ := htuple (.inr rfl)
      exact cypher_nin_value hprop hs (hok xs rfl)
  case eq =>
      rcases hok with hn | ho | ⟨items, rfl, -⟩
      · obtain ⟨e, he, hv⟩ := cypher_null_value hprop hs (Or.inl rfl) hn
        refine ⟨e, he, hv.trans ?_⟩
        rw [isNone_iff.mp hn]
        simp [systemTruth, Value.isTuple, Value.isNone]
      · obtain ⟨ht, hn⟩ := ho.not_tuple_none
        obtain ⟨e, he, hv⟩ := cypher_eq_value hprop hn fun h => (cypher_typed ho hs h).1
        exact ⟨e, he, hv.trans (by simp [systemTruth, ht, hn])⟩
      · obtain ⟨e, he, hv⟩ := cypher_eq_value hprop rfl fun h => cypherEquals_tuple h hs items
        exact ⟨e, he, hv.trans (by simp [systemTruth, Value.isTuple])⟩
  case ne =>
      rcases hok with hn | ho | ⟨items, rfl, -⟩
      · obtain ⟨e, he, hv⟩ := cypher_null_value hprop hs (Or.inr (Or.inl rfl)) hn
        refine ⟨e, he, hv.trans ?_⟩
        rw [isNone_iff.mp hn]
        simp [systemTruth, Value.isTuple, Value.isNone]
      · obtain ⟨ht, hn⟩ := ho.not_tuple_none
        obtain ⟨e, he, hv⟩ := cypher_ne_value hprop hs hn fun h => (cypher_typed ho hs h).1
        exact ⟨e, he, hv.trans (by simp [systemTruth, ht, hn])⟩
      · obtain ⟨e, he, hv⟩ := cypher_ne_value hprop hs rfl fun h => cypherEquals_tuple h hs items
        exact ⟨e, he, hv.trans (by simp [systemTruth, Value.isTuple])⟩
  case gt => exact hrange _ rfl hok
  case gte => exact hrange _ rfl hok
  case lt => exact hrange _ rfl hok
  case lte => exact hrange _ rfl hok
  all_goals exact absurd hop (by decide)

end Leaf

/-! ## Chunks whose texts compare as their values -/

namespace TemporalChunk

variable (chunk : TemporalChunk)

/-- The date, if it is set, is in UTC; and the creation time is set. -/
def DateOk (k : DateKey) : Prop :=
  (∀ d, chunk.dates k = some d → d.offset = some 0) ∧
    (k = .createdAt → (chunk.dates .createdAt).isSome = true)

def KeyOk : SystemKey → Prop
  | .date k => chunk.DateOk k
  | .string _ => True

variable {chunk} {k : SystemKey} {name : String}

theorem holds_value (h : chunk.KeyOk k) : k.Holds (chunk.value k) := by
  cases k with
  | date k =>
      simp only [value]
      cases hd : chunk.dates k with
      | none => exact Or.inl rfl
      | some d => exact Or.inr ⟨d, rfl, h.1 d hd⟩
  | string k =>
      simp only [value]
      cases hs : chunk.strings k with
      | none => exact Or.inl rfl
      | some s => exact Or.inr ⟨s, rfl⟩

/-- The writer keeps each field as its text. -/
theorem createChunkNode_eq (h : chunk.KeyOk k) (hk : SystemKey.ofName? name = some k)
    (now : DateTime) : createChunkNode chunk now name = nodeText (chunk.value k) := by
  cases k with
  | date k =>
      cases hd : chunk.dates k with
      | none =>
          cases k
          case createdAt =>
              have hsome := h.2 rfl
              rw [hd] at hsome
              cases hsome
          all_goals simp [createChunkNode, hk, value, hd, nodeText]
      | some d => cases k <;> simp [createChunkNode, hk, value, hd, nodeText]
  | string k =>
      cases hs : chunk.strings k <;> simp [createChunkNode, hk, value, hs, nodeText]

theorem resolveSystem_record {ctx : CompileContext} (hmap : ctx.fieldMapping = none)
    (hk : SystemKey.ofName? name = some k) :
    resolveSystem ctx chunk.record name = chunk.value k := by
  have hne : name ≠ "metadata" := by
    rintro rfl
    rw [SystemKey.ofName?_metadata] at hk
    cases hk
  simp [resolveSystem, physical_of_none hmap, record, hne, hk]

end TemporalChunk

/-- The system leaf reads a text that compares as the chunk's value does. -/
def CypherLeafOk (chunk : TemporalChunk) (c : FilterClause) : Prop :=
  ∀ key, c.systemKey? = some key → ∀ k, SystemKey.ofName? key = some k →
    chunk.KeyOk k ∧ CypherOperandOk k c.op c.operand

section Tree

variable {ctx : CompileContext} {chunk : TemporalChunk} {now : DateTime}

/-- **A pushed leaf is exact** on the node of a chunk it is fit for. -/
theorem cypherClause_value (hmap : ctx.fieldMapping = none) {c : FilterClause} (hshape : OpShape c)
    (hsys : cypherConsumable c = true) (hok : CypherLeafOk chunk c) :
    ∃ y b, compileCypherClause ctx c = .ok y ∧
      y.predicate.eval (createChunkNode chunk now) = some b ∧
      clauseValue ctx chunk.record c = .ok b := by
  obtain ⟨key, hkey⟩ := Option.isSome_iff_exists.mp hsys
  obtain ⟨k, hk, -⟩ := SystemKey.exists_ofName? (systemKey?_mem hkey)
  obtain ⟨hkeyOk, hoperand⟩ := hok key hkey k hk
  have hholds := TemporalChunk.holds_value hkeyOk
  have hprop : createChunkNode chunk now (ctx.physical key) = nodeText (chunk.value k) := by
    rw [physical_of_none hmap]
    exact TemporalChunk.createChunkNode_eq hkeyOk hk now
  obtain ⟨e, he, hv⟩ := cypherSystemClause_value hprop hholds hshape.op_mem hshape.tuple hoperand
  have hpy := systemClause_value hshape.op_mem hshape.tuple
    (TemporalChunk.resolveSystem_record hmap hk) hholds hoperand.system
  refine ⟨c.emit e, systemTruth (chunk.value k) c.op c.operand, ?_, hv, ?_⟩
  · simp only [compileCypherClause, hkey, he]
    rfl
  · simp only [clauseValue, compilePythonClause, hkey]
    exact hpy

theorem cypherTarget_models (node : ChunkNode) : cypherTarget.Models3 (CypherCond.eval node) where
  matchAll := rfl
  matchNone := rfl
  all := fun l => by rw [← CypherCond.evals_eq]; rfl
  any := fun l => by rw [← CypherCond.evals_eq]; rfl
  neg := fun _ => rfl

theorem cypherTarget_closed : cypherTarget.Closed fun _ => True where
  matchAll := trivial
  matchNone := trivial
  all := fun _ _ => trivial
  any := fun _ _ => trivial
  neg := fun _ _ => trivial

/-- Over system keys the predicate and the filter have one truth value. -/
theorem cypher_value (hmap : ctx.fieldMapping = none) {t : Ast} (hw : t.wellFormed = true)
    (hshape : ∀ c ∈ t.leaves, OpShape c) (hsys : ∀ c ∈ t.leaves, cypherConsumable c = true)
    (hok : ∀ c ∈ t.leaves, CypherLeafOk chunk c) :
    ∃ e p b, compileCypher ctx t = .ok e ∧
      e.predicate.eval (createChunkNode chunk now) = some b ∧
      compilePython ctx t = .ok p ∧ p chunk.record = .ok b := by
  have hvalue : ∀ c ∈ t.leaves, ∃ y, compileCypherClause ctx c = .ok y ∧
      y.predicate.eval (createChunkNode chunk now) =
        some (accepts (clauseValue ctx chunk.record c)) ∧
      clauseValue ctx chunk.record c = .ok (accepts (clauseValue ctx chunk.record c)) := by
    intro c hc
    obtain ⟨y, b, hy, hv, hpy⟩ := cypherClause_value hmap (hshape c hc) (hsys c hc) (hok c hc)
    refine ⟨y, hy, ?_⟩
    rw [hpy, hv]
    cases b <;> exact ⟨rfl, rfl⟩
  obtain ⟨x, hx, -, hval⟩ := @compileNode_exact _ _ cypherConsumable
    (compileCypherClause ctx) ctx.isSplit _ _
    (cypherTarget_models (createChunkNode chunk now)).recording cypherTarget_closed.recording
    (fun c => accepts (clauseValue ctx chunk.record c)) t hw ((nodeConsumable_iff t).mpr hsys)
    fun c hc => by
      obtain ⟨y, hy, hv, -⟩ := hvalue c hc
      exact ⟨y, hy, trivial, hv⟩
  obtain ⟨p, hp, -⟩ := @compilePythonNode_returns ctx (fun _ _ => False) t hw fun c hc => by
    obtain ⟨-, -, -, hpy⟩ := hvalue c hc
    obtain ⟨q, hq, -⟩ := bind_eq_ok.mp hpy
    exact ⟨q, hq, fun r h => h.elim⟩
  have hcompile : compileCypher ctx t = .ok ⟨x.predicate, x.consumed⟩ := by
    rw [compileCypher, hx]
    rfl
  refine ⟨_, p, t.eval fun c => accepts (clauseValue ctx chunk.record c), hcompile, hval, hp, ?_⟩
  rw [predicate_eq_evalE chunk.record hw p hp]
  refine Ast.evalE_total hw fun c hc => ?_
  obtain ⟨-, -, -, hpy⟩ := hvalue c hc
  exact hpy

/-- A leaf that is not pushed matches every node in split mode. -/
theorem cypherClause_deferred (hsplit : ctx.onUnsupported = .split) {c : FilterClause}
    (hsys : cypherConsumable c = false) :
    compileCypherClause ctx c = .ok ⟨.const true, []⟩ := by
  have hnone : c.systemKey? = none := by
    simpa [cypherConsumable] using hsys
  have hmode : ctx.onUnsupported ≠ .raise := by
    rw [hsplit]
    decide
  unfold compileCypherClause
  rw [hnone]
  split
  · rename_i h
    cases h
  · rw [Target.unsupported, if_neg hmode]
    rfl
  · rw [Target.unsupported, if_neg hmode]
    rfl

/-- In split mode no chunk of the filter is lost. -/
theorem cypher_selects (hmap : ctx.fieldMapping = none) (hsplit : ctx.onUnsupported = .split)
    {t : Ast} (hw : t.wellFormed = true) (hshape : ∀ c ∈ t.leaves, OpShape c)
    (hok : ∀ pc ∈ pushedLeaves cypherConsumable true t, CypherLeafOk chunk pc.2) :
    ∃ e, compileCypher ctx t = .ok e ∧
      ∀ p, compilePython ctx t = .ok p → p chunk.record = .ok true →
        e.predicate.eval (createChunkNode chunk now) = some true := by
  have hleaf : ∀ pc ∈ pushedLeaves cypherConsumable true t, ∃ y,
      compileCypherClause ctx pc.2 = .ok y ∧
      ((pc.1 = false → cypherConsumable pc.2 = true) →
        Meets pc.1 (clauseValue ctx chunk.record pc.2)
          (y.predicate.eval (createChunkNode chunk now))) := by
    intro pc hpc
    cases hsys : cypherConsumable pc.2 with
    | true =>
        obtain ⟨y, b, hy, hv, hpy⟩ := @cypherClause_value ctx chunk now hmap pc.2
          (hshape _ (mem_leaves_of_pushed hw true pc hpc)) hsys (hok pc hpc)
        refine ⟨y, hy, fun _ hpol => ?_⟩
        rw [hpy] at hpol
        rw [hv, Except.ok.inj hpol]
    | false =>
        refine ⟨_, cypherClause_deferred hsplit hsys, fun hgate _ => ?_⟩
        cases hpol : pc.1 with
        | true => rfl
        | false => exact absurd (hgate hpol) (by simp)
  obtain ⟨x, hx, -⟩ := compileNode_good cypherTarget_closed.recording hw true fun pc hpc => by
    obtain ⟨y, hy, -⟩ := hleaf pc hpc
    exact ⟨y, hy, trivial⟩
  have hmeets := meets_compileNode (cypherTarget_models (createChunkNode chunk now)).recording hw true
    (by simp) (fun pc hpc hgate y hy => by
      obtain ⟨y', hy', hm⟩ := hleaf pc hpc
      obtain rfl := Except.ok.inj (hy'.symm.trans hy)
      exact hm hgate) x hx
  refine ⟨⟨x.predicate, x.consumed⟩, ?_, ?_⟩
  · have hs : ctx.isSplit = true := by simp [CompileContext.isSplit, hsplit]
    rw [compileCypher, hs, hx]
    rfl
  · intro p hp htrue
    rw [← predicate_eq_evalE chunk.record hw p hp] at hmeets
    exact hmeets htrue

end Tree

/-! ## A date that is not in UTC tells the two apart -/

/-- The filter document with one date key. -/
def dateFilter (k : DateKey) (p : Field DatePredicate) : RecallFilter :=
  { emptyFilter with dates := fun k' => if k' = k then p else .unset }

/-- `{"$ne": d}` -/
def otherThan (d : DateTime) : DatePredicate :=
  .ops ⟨.unset, .value d, .unset, .unset, .unset, .unset, .unset, .unset, .unset⟩

def perDate {α : Type} (occurredAt createdAt sourceTimestamp : α) : DateKey → α
  | .occurredAt => occurredAt
  | .createdAt => createdAt
  | .sourceTimestamp => sourceTimestamp

/-- A normalized predicate passes the validators and is lowered alone. -/
theorem dateFilter_lowers (k : DateKey) {p : Field DatePredicate} {c : FilterClause}
    (hnorm : p.mapM DatePredicate.normalize = .ok p) (hlower : lowerDateKey k p = .ok [.clause c]) :
    ∃ f, (dateFilter k p).validate = .ok f ∧ parseToAst f = .ok (.node .and [.clause c]) := by
  have hvalid : (dateFilter k p).validate = .ok { emptyFilter with
      dates := perDate (if DateKey.occurredAt = k then p else .unset) (if DateKey.createdAt = k then p else .unset)
        (if DateKey.sourceTimestamp = k then p else .unset) } := by
    cases k
    all_goals
      simp only [dateFilter, RecallFilter.validate, reduceCtorEq, if_true, if_false, hnorm]
      rfl
  refine ⟨_, hvalid, ?_⟩
  cases k
  all_goals
    simp only [emptyFilter, parseToAst, lowerFields, perDate, DateKey.all, List.mapM_cons, hlower,
      reduceCtorEq, if_true, if_false]
    rfl

theorem dateFilter_otherThan (k : DateKey) {u : DateTime} (hu : u.offset = some 0) :
    ∃ f, (dateFilter k (.value (otherThan u))).validate = .ok f ∧
      parseToAst f = .ok (.node .and [.clause ⟨[k.name], .ne, .datetime u⟩]) := by
  refine dateFilter_lowers k ?_ rfl
  have hutc : normalizeUtc u = .ok u := by rw [normalizeUtc, DateTime.toUtc_eq_self hu]
  simp [otherThan, DatePredicate.normalize, DateOps.normalize, Field.mapM, hutc]
  rfl

section Single

variable {ctx : CompileContext} {k : DateKey} {op : Op} {operand : Value}

theorem systemKey?_date (k : DateKey) (op : Op) (operand : Value) :
    FilterClause.systemKey? ⟨[k.name], op, operand⟩ = some k.name := by
  simp [FilterClause.systemKey?, k.name_mem_systemKeys]

/-- The predicate of one date leaf. -/
theorem compileCypher_single {x : CypherCond}
    (hx : cypherSystemClause ctx k.name op operand = .ok x) (node : ChunkNode) :
    ∃ e, compileCypher ctx (.node .and [.clause ⟨[k.name], op, operand⟩]) = .ok e ∧
      e.predicate.eval node = x.eval node := by
  refine ⟨⟨.all [x], [k.name]⟩, ?_, ?_⟩
  · have hclause : compileCypherClause ctx ⟨[k.name], op, operand⟩ =
        .ok (FilterClause.emit ⟨[k.name], op, operand⟩ x) := by
      simp only [compileCypherClause, systemKey?_date, hx]
      rfl
    rw [compileCypher, compileNode, compileNodes, compileNode, hclause]
    rfl
  · rw [CypherCond.eval, CypherCond.evals, CypherCond.evals, all_cons, all_nil, and_some_true]

/-- The filter of one date leaf. -/
theorem compilePython_single {q : Predicate}
    (hq : compileSystemClause ctx k.name op operand = .ok q) (r : Record) :
    ∃ p, compilePython ctx (.node .and [.clause ⟨[k.name], op, operand⟩]) = .ok p ∧ p r = q r := by
  refine ⟨fun r => [q].allM fun fn => fn r, ?_, allM_singleton _ _⟩
  have hclause : compilePythonClause ctx ⟨[k.name], op, operand⟩ = .ok q := by
    simp only [compilePythonClause, systemKey?_date, hq]
  rw [compilePython, compilePythonNode, compilePythonNodes, compilePythonNode, hclause]
  rfl

end Single

theorem ofName?_date (k : DateKey) : SystemKey.ofName? k.name = some (.date k) := by
  cases k <;> decide

/-- The text of a set date. -/
theorem createChunkNode_date {chunk : TemporalChunk} {k : DateKey} {d : DateTime}
    (hd : chunk.dates k = some d) (now : DateTime) :
    createChunkNode chunk now k.name = some d.isoformat := by
  cases k <;> simp [createChunkNode, ofName?_date, hd]

/-- Some UTC operand of `$ne` does not accept `d`: its own instant, or any when `d` has
none in UTC and the filter raises. -/
theorem exists_utc_not_ne (d : DateTime) :
    ∃ u : DateTime, u.offset = some 0 ∧ systemNe (.datetime d) (.datetime u) ≠ .ok true := by
  cases hd : d.toUtc with
  | none =>
      refine ⟨january 1 (by decide), rfl, ?_⟩
      simp [systemNe, Value.isNone, Value.comparable, eqAligned, alignDt, toUtc, hd, bind, Except.bind]
  | some u =>
      obtain ⟨hinst, hoff⟩ := DateTime.toUtc_eq_some_iff.mp hd
      refine ⟨u, hoff, ?_⟩
      have heq : Value.datetimeEq u u = true := by simp [Value.datetimeEq]
      simp [systemNe, Value.isNone, Value.comparable, eqAligned, alignDt, toUtc, hd,
        DateTime.toUtc_eq_self hoff, bind, Except.bind, Value.pyEq, heq]

/-- The predicate and the filter disagree on the chunk. -/
def Disagree (ctx : CompileContext) (chunk : TemporalChunk) (now : DateTime) (t : Ast) : Prop :=
  ∃ e p, compileCypher ctx t = .ok e ∧ compilePython ctx t = .ok p ∧
    ¬ (e.predicate.eval (createChunkNode chunk now) = some true ↔ p chunk.record = .ok true)

section Differ

variable {ctx : CompileContext} {chunk : TemporalChunk} {k : DateKey}

/-- A date under another offset: `$ne` of its own instant. -/
theorem disagree_of_offset (hmap : ctx.fieldMapping = none) {d : DateTime}
    (hd : chunk.dates k = some d) (hoff : d.offset ≠ some 0) (now : DateTime) :
    ∃ u : DateTime, u.offset = some 0 ∧
      Disagree ctx chunk now (.node .and [.clause ⟨[k.name], .ne, .datetime u⟩]) := by
  obtain ⟨u, hu, hpy⟩ := exists_utc_not_ne d
  have hx : cypherSystemClause ctx k.name .ne (.datetime u) =
      .ok (.any [.isNull k.name, .differs k.name (.str u.isoformat)]) := by
    simp [cypherSystemClause, physical_of_none hmap, Value.isNone, cypherValue]
  obtain ⟨e, he, heval⟩ := compileCypher_single hx (createChunkNode chunk now)
  have hq : compileSystemClause ctx k.name .ne (.datetime u) =
      .ok fun r => systemNe (resolveSystem ctx r k.name) (.datetime u) := by
    simp [compileSystemClause, Value.isTuple, Value.isNone, systemValue]
  obtain ⟨p, hp, hpr⟩ := compilePython_single hq chunk.record
  refine ⟨u, hu, e, p, he, hp, ?_⟩
  have htexts : (d.isoformat == u.isoformat) = false := by
    rw [beq_eq_false_iff_ne]
    intro heq
    rw [DateTime.isoformat_injective heq] at hoff
    exact hoff hu
  have htrue : e.predicate.eval (createChunkNode chunk now) = some true := by
    rw [heval, CypherCond.eval]
    simp [CypherCond.evals, CypherCond.eval, createChunkNode_date hd, cypherEquals, htexts]
  have hvalue : p chunk.record = systemNe (.datetime d) (.datetime u) := by
    rw [hpr, TemporalChunk.resolveSystem_record hmap (ofName?_date k)]
    simp [TemporalChunk.value, hd]
  rw [hvalue]
  exact fun h => hpy (h.mp htrue)

/-- No creation time: the node has the time of the write instead of null. -/
theorem disagree_of_uncreated (hmap : ctx.fieldMapping = none)
    (hd : chunk.dates .createdAt = none) (now : DateTime) :
    Disagree ctx chunk now (.node .and [.clause ⟨[DateKey.createdAt.name], .eq, .none⟩]) := by
  have hx : cypherSystemClause ctx DateKey.createdAt.name .eq .none =
      .ok (.isNull DateKey.createdAt.name) := by
    simp [cypherSystemClause, physical_of_none hmap, Value.isNone]
  obtain ⟨e, he, heval⟩ := compileCypher_single hx (createChunkNode chunk now)
  have hq : compileSystemClause ctx DateKey.createdAt.name .eq .none =
      .ok fun r => .ok (resolveSystem ctx r DateKey.createdAt.name).isNone := by
    simp [compileSystemClause, Value.isTuple, Value.isNone]
  obtain ⟨p, hp, hpr⟩ := compilePython_single hq chunk.record
  refine ⟨e, p, he, hp, ?_⟩
  have hfalse : e.predicate.eval (createChunkNode chunk now) = some false := by
    rw [heval, CypherCond.eval]
    simp [createChunkNode, ofName?_date]
  have hvalue : p chunk.record = .ok true := by
    rw [hpr, TemporalChunk.resolveSystem_record hmap (ofName?_date .createdAt)]
    simp [TemporalChunk.value, hd, Value.isNone]
  rw [hfalse, hvalue]
  simp

/-- **A date that is not fit is found out** by a filter over its key alone. -/
theorem disagree_of_not_dateOk (hmap : ctx.fieldMapping = none) (h : ¬ chunk.DateOk k)
    (now : DateTime) :
    ∃ (raw f : RecallFilter) (t : Ast), raw.validate = .ok f ∧ parseToAst f = .ok t ∧
      (∀ c ∈ t.leaves, c.systemKey? = some k.name ∧ CypherOperandOk (.date k) c.op c.operand) ∧
      Disagree ctx chunk now t := by
  by_cases hutc : ∀ d, chunk.dates k = some d → d.offset = some 0
  · have hmissing : k = .createdAt ∧ chunk.dates .createdAt = none := by
      rw [TemporalChunk.DateOk, not_and] at h
      have hk := h hutc
      rw [Classical.not_imp] at hk
      exact ⟨hk.1, by simpa using hk.2⟩
    obtain ⟨rfl, hnone⟩ := hmissing
    obtain ⟨f, hvalid, hparse⟩ := @dateFilter_lowers .createdAt .null _ rfl rfl
    refine ⟨_, f, _, hvalid, hparse, ?_, disagree_of_uncreated hmap hnone now⟩
    intro c hc
    obtain rfl := List.mem_singleton.mp hc
    exact ⟨systemKey?_date _ _ _, Or.inl rfl⟩
  · obtain ⟨d, hd, hoff⟩ : ∃ d, chunk.dates k = some d ∧ d.offset ≠ some 0 := by
      simpa only [not_forall, exists_prop] using hutc
    obtain ⟨u, hu, hdis⟩ := disagree_of_offset hmap hd hoff now
    obtain ⟨f, hvalid, hparse⟩ := dateFilter_otherThan k hu
    refine ⟨_, f, _, hvalid, hparse, ?_, hdis⟩
    intro c hc
    obtain rfl := List.mem_singleton.mp hc
    exact ⟨systemKey?_date _ _ _, Or.inr (Or.inl ⟨u, rfl, hu⟩)⟩

end Differ

/-- **`compile_cypher` on chunk nodes.**  Over system keys the predicate and the filter
have one truth value on every chunk whose leaves are fit; in split mode the predicate
keeps every chunk of a filter whose pushed leaves are; and on a chunk with a date that
is not fit some accepted filter over that key alone tells the two apart. -/
theorem cypher_exact {ctx : CompileContext} (hmap : ctx.fieldMapping = none)
    (chunk : TemporalChunk) (now : DateTime) :
    (∀ (raw f : RecallFilter) (t : Ast), raw.validate = .ok f → parseToAst f = .ok t →
      (∀ c ∈ t.leaves, cypherConsumable c = true) → (∀ c ∈ t.leaves, CypherLeafOk chunk c) →
      ∃ e p b, compileCypher ctx t = .ok e ∧
        e.predicate.eval (createChunkNode chunk now) = some b ∧
        compilePython ctx t = .ok p ∧ p chunk.record = .ok b) ∧
    (ctx.onUnsupported = .split →
      ∀ (raw f : RecallFilter) (t : Ast), raw.validate = .ok f → parseToAst f = .ok t →
      (∀ pc ∈ pushedLeaves cypherConsumable true t, CypherLeafOk chunk pc.2) →
      ∃ e, compileCypher ctx t = .ok e ∧
        ∀ p, compilePython ctx t = .ok p → p chunk.record = .ok true →
          e.predicate.eval (createChunkNode chunk now) = some true) ∧
    ∀ k, ¬ chunk.DateOk k →
      ∃ (raw f : RecallFilter) (t : Ast), raw.validate = .ok f ∧ parseToAst f = .ok t ∧
      (∀ c ∈ t.leaves, c.systemKey? = some k.name ∧ CypherOperandOk (.date k) c.op c.operand) ∧
      Disagree ctx chunk now t := by
  refine ⟨?_, ?_, fun k hk => disagree_of_not_dateOk hmap hk now⟩
  · intro raw f t hvalid hparse hsys hok
    have hs := ((parseToAst_iff f (RecallFilter.valid_of_validate hvalid)).value t hparse).2
    exact cypher_value hmap (hs.wellFormed t (by simp)) (by simpa using hs.shaped) hsys hok
  · intro hsplit raw f t hvalid hparse hok
    have hs := ((parseToAst_iff f (RecallFilter.valid_of_validate hvalid)).value t hparse).2
    exact cypher_selects hmap hsplit (hs.wellFormed t (by simp)) (by simpa using hs.shaped) hok

/-- A chunk created on 2 January 2024. -/
def chunkOccurring (d : DateTime) : TemporalChunk where
  dates := fun k => match k with
    | .occurredAt => some d
    | .createdAt => some (january 2 (Eq.refl true))
    | .sourceTimestamp => none
  strings := fun _ => none
  metadata := []

theorem cypher_exact_newYear : ∃ f t e p b,
    (dateFilter .occurredAt (.value (otherThan (january 1 (by decide))))).validate = .ok f ∧
    parseToAst f = .ok t ∧ compileCypher splitContext t = .ok e ∧
    e.predicate.eval (createChunkNode (chunkOccurring (january 1 (by decide)))
      (january 2 (by decide))) = some b ∧
    compilePython splitContext t = .ok p ∧
    p (chunkOccurring (january 1 (by decide))).record = .ok b := by
  obtain ⟨f, hvalid, hparse⟩ := @dateFilter_otherThan .occurredAt (january 1 (by decide)) rfl
  have hsys : ∀ c ∈ (Ast.node .and [.clause ⟨[DateKey.occurredAt.name], .ne,
      .datetime (january 1 (by decide))⟩]).leaves, cypherConsumable c = true := by
    intro c hc
    obtain rfl := List.mem_singleton.mp hc
    rfl
  have hok : ∀ c ∈ (Ast.node .and [.clause ⟨[DateKey.occurredAt.name], .ne,
      .datetime (january 1 (by decide))⟩]).leaves,
      CypherLeafOk (chunkOccurring (january 1 (by decide))) c := by
    intro c hc
    obtain rfl := List.mem_singleton.mp hc
    intro key hkey k hk
    obtain rfl : key = DateKey.occurredAt.name := by
      rw [systemKey?_date] at hkey
      exact (Option.some.inj hkey).symm
    obtain rfl : k = .date .occurredAt := by
      rw [ofName?_date] at hk
      exact (Option.some.inj hk).symm
    refine ⟨⟨?_, by simp⟩, Or.inr (Or.inl ⟨_, rfl, rfl⟩)⟩
    intro d hd
    cases hd
    rfl
  obtain ⟨e, p, b, he, hv, hp, hb⟩ := (@cypher_exact splitContext rfl
    (chunkOccurring (january 1 (by decide))) (january 2 (by decide))).1 _ f _ hvalid hparse hsys hok
  exact ⟨f, _, e, p, b, hvalid, hparse, he, hv, hp, hb⟩

/-- Two in the morning of 1 January 2024, two hours east of UTC. -/
def eastern : DateTime where
  year := 2024
  month := 1
  day := 1
  hour := 2
  minute := 0
  second := 0
  micro := 0
  offset := some 7200000000
  date_valid := Eq.refl true
  time_valid := by decide
  offset_valid := by decide

/-- The node of a chunk that occurred at the instant asked for is not matched when the
chunk holds it under another offset. -/
theorem offsetFilter_differs : ∃ f t e p,
    (dateFilter .occurredAt (.value (.datetime (january 1 (by decide))))).validate = .ok f ∧
    parseToAst f = .ok t ∧ compileCypher splitContext t = .ok e ∧
    compilePython splitContext t = .ok p ∧
    p (chunkOccurring eastern).record = .ok true ∧
    e.predicate.eval (createChunkNode (chunkOccurring eastern) eastern) = some false := by
  refine ⟨_, _, _, _, rfl, rfl, rfl, rfl, ?_, ?_⟩
  · decide
  · decide

end Khora
