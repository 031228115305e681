import Khora.Filter.Superset
import Khora.Filter.Sqlite

/-!
# The SQLite compiler

`compile_lance` lowers an AST to a SQLite condition over a table of text columns and
a JSON-text metadata column.  System keys become comparisons made total by
`coalesce`; metadata leaves become `json_each` containment, `json()` text equality
for exact arrays and type-gated range comparisons.  What SQLite cannot express is
left to the in-memory post-filter.

* `lanceConsumable` — the gate, `compileLanceClause` — the emission.
-/

namespace Khora

/-- `_system_value` and `_jsonable_scalar`: a date becomes its ISO text. -/
def lanceScalar : Value → Value
  | .dateLiteral d => .str d.isoformat
  | .datetime d => .str d.isoformat
  | v => v

/-- `_operand_type_gate`: the `json_type` names of the operand's kind. -/
def operandTypeGate : Value → List String
  | .bool _ => ["true", "false"]
  | .int _ => ["integer", "real"]
  | .float _ => ["integer", "real"]
  | _ => ["text"]

/-- `_has_unpushable_in_element`. -/
def hasUnpushableInElement : Value → Bool
  | .tuple xs => xs.any fun x => match x with
      | .none => true
      | .dict _ => true
      | _ => false
  | .list xs => xs.any fun x => match x with
      | .none => true
      | .dict _ => true
      | _ => false
  | _ => false

def Value.isDict : Value → Bool
  | .dict _ => true
  | _ => false

def Value.isDateLiteral : Value → Bool
  | .dateLiteral _ => true
  | _ => false

section Compile

variable (ctx : CompileContext)

/-! ## System keys -/

/-- `_Builder._compile_system_clause`. -/
def lanceSystemClause (key : String) (op : Op) (operand : Value) : Except PyErr SqliteCond :=
  let col := SqlTerm.column (ctx.physical key)
  match op with
  | .exists_ => .ok (.const operand.truthy)
  | .in_ =>
      if !operand.truthy then .ok (.const false)
      else do
        let values ← pyIter operand
        .ok (.coalesce (.isIn col (values.map fun v => .bind (lanceScalar v))))
  | .nin =>
      if !operand.truthy then .ok (.const true)
      else do
        let values ← pyIter operand
        .ok (.any [.isNull col, .not (.isIn col (values.map fun v => .bind (lanceScalar v)))])
  | op =>
      if op = .eq ∧ operand.isTuple then .ok (.const false)
      else if op = .ne ∧ operand.isTuple then .ok (.const true)
      else if operand.isNone then
        if op = .ne then .ok (.isNotNull col) else .ok (.isNull col)
      else if op = .ne then .ok (.any [.isNull col, .ne col (.bind (lanceScalar operand))])
      else if op = .eq then .ok (.coalesce (.eq col (.bind (lanceScalar operand))))
      else match rangeOp? op with
        | some c => .ok (.coalesce (.range c col (.bind (lanceScalar operand))))
        | none => .error .keyError

/-! ## Metadata -/

section Metadata

variable (segs : List String)

/-- `_md_contains`; a bool binds as 1 or 0. -/
def lanceContains (value : Value) : SqliteCond :=
  .coalesce (.existsEach (ctx.physical "metadata") segs (lanceScalar value) (operandTypeGate value))

/-- `_md_exact_array`; `json.dumps` raises on an item it cannot write. -/
def lanceExactArray (items : List Value) : Except PyErr SqliteCond := do
  let js ← items.mapM fun item => (lanceScalar item).toJson
  .ok (.coalesce (.caseWhen
    (.eq (.jsonType (ctx.physical "metadata") segs) (.literal "array"))
    (.eq (.jsonNode (ctx.physical "metadata") segs) (.jsonText (.arr js)))))

/-- `_md_range`. -/
def lanceRange (c : Value.Cmp) (operand : Value) : SqliteCond :=
  .coalesce (.all [
    .inTexts (.jsonType (ctx.physical "metadata") segs) (operandTypeGate operand),
    .range c (.jsonExtract (ctx.physical "metadata") segs) (.bind (lanceScalar operand))])

/-- `_md_null`. -/
def lanceNull : SqliteCond :=
  .any [.isNull (.jsonType (ctx.physical "metadata") segs),
    .eq (.jsonType (ctx.physical "metadata") segs) (.literal "null")]

/-- The equality of a metadata leaf, `none` when it is not pushed down. -/
def lanceEquality (operand : Value) : Except PyErr (Option SqliteCond) :=
  match operand with
  | .none => .ok (some (lanceNull ctx segs))
  | .dateLiteral _ => .ok none
  | .dict _ => .ok none
  | .tuple items => some <$> lanceExactArray ctx segs items
  | v => .ok (some (lanceContains ctx segs v))

/-- `_Builder._compile_metadata_clause` below the blob, `none` when it is not pushed down. -/
def lanceMetadataClause (op : Op) (operand : Value) : Except PyErr (Option SqliteCond) :=
  match op with
  | .exists_ =>
      let present := SqliteCond.isNotNull (.jsonType (ctx.physical "metadata") segs)
      .ok (some (if operand.truthy then present else .not present))
  | .in_ =>
      if !operand.truthy then .ok (some (.const false))
      else if hasUnpushableInElement operand then .ok none
      else do
        let values ← pyIter operand
        .ok (some (.any (values.map (lanceContains ctx segs))))
  | .nin =>
      if !operand.truthy then .ok (some (.const true))
      else if hasUnpushableInElement operand then .ok none
      else do
        let values ← pyIter operand
        .ok (some (.not (.any (values.map (lanceContains ctx segs)))))
  | .eq => lanceEquality ctx segs operand
  | .ne => (fun e => e.map SqliteCond.not) <$> lanceEquality ctx segs operand
  | op =>
      if operand.isDateLiteral then .ok none
      else match rangeOp? op with
        | some c => .ok (some (lanceRange ctx segs c operand))
        | none => .error .keyError

end Metadata

/-! ## The compiler -/

/-- SQLite conditions as a target. -/
def lanceTarget : Target SqliteCond where
  matchAll := .const true
  matchNone := .const false
  all := .all
  any := .any
  neg := .not

/-- `_Builder._clause_consumable`. -/
def lanceConsumable (c : FilterClause) : Bool :=
  match c.systemKey?, c.metadataPath? with
  | some key, _ => ctx.systemKeyDeclared key
  | none, none => false
  | none, some [] => false
  | none, some (_ :: _) =>
      ctx.schemaCapabilities.sqliteJson1 && !c.operand.isDateLiteral && !c.operand.isDict &&
        !((c.op == .in_ || c.op == .nin) && hasUnpushableInElement c.operand)

/-- `_Builder.compile_clause`. -/
def compileLanceClause (c : FilterClause) : Except PyErr (Emitted SqliteCond) :=
  match c.systemKey?, c.metadataPath? with
  | some key, _ =>
      if ctx.systemKeyDeclared key then c.emit <$> lanceSystemClause ctx key c.op c.operand
      else lanceTarget.unsupported ctx c "the backend does not declare a column for this system key"
  | none, some segs =>
      if !ctx.schemaCapabilities.sqliteJson1 then
        lanceTarget.unsupported ctx c "SQLite JSON1 functions are unavailable"
      else lanceTarget.emitOption ctx c "metadata predicate is not pushed down to SQLite"
        (if segs = [] then .ok none else lanceMetadataClause ctx segs c.op c.operand)
  | none, none =>
      lanceTarget.unsupported ctx c "path is neither a system key nor a metadata path"

/-- `compile_lance`. -/
def compileLance (t : Ast) : Except PyErr (CompiledFilter SqliteCond) :=
  compileFilter lanceTarget ctx (lanceConsumable ctx) (compileLanceClause ctx) t

end Compile

/-- A split-mode context over a SQLite build with JSON functions. -/
def json1Context : CompileContext :=
  { splitContext with schemaCapabilities := ⟨false, false, false, true⟩ }

end Khora
