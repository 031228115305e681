import Khora.Filter.ChunkRow
import Khora.Lib.Ternary

/-!
# The PostgreSQL compiler

`compile_postgres` lowers an AST to a condition over typed columns and a `jsonb`
metadata column.  Operands that become `jsonb` literals are written with
`json.dumps(…, sort_keys=True)`, which raises on a value it cannot write or on a dict
whose keys it cannot sort.

* `postgresConsumable` — the gate, `compilePostgresClause` — the emission.
-/

namespace Khora

open Calendar (DateTime)

/-! ## Conditions -/

inductive PgCond where
  | const (b : Bool)
  | isNull (column : String)
  | isNotNull (column : String)
  | columnEq (column : String) (v : Value)
  | columnNe (column : String) (v : Value)
  | columnRange (c : Value.Cmp) (column : String) (v : Value)
  | columnIn (column : String) (vs : List Value)
  | columnNotIn (column : String) (vs : List Value)
  /-- `coalesce(metadata, '{}') = doc`. -/
  | blobEq (column : String) (doc : Json)
  /-- `coalesce(metadata, '{}') @> doc`. -/
  | contains (column : String) (doc : Json)
  /-- `coalesce(metadata, '{}') ? key`. -/
  | hasKey (column : String) (key : String)
  /-- `metadata #> path IS NOT NULL`. -/
  | pathPresent (column : String) (segs : List String)
  /-- `metadata #> path = doc`. -/
  | pathEq (column : String) (segs : List String) (doc : Json)
  /-- `jsonb_typeof(node) = 'array' AND EXISTS (… jsonb_array_elements(node) = doc)`. -/
  | pathItemEq (column : String) (segs : List String) (doc : Json)
  /-- `CASE WHEN jsonb_typeof(node) = gate THEN CAST(text AS …) END op literal`. -/
  | pathRange (c : Value.Cmp) (column : String) (segs : List String) (gate : String) (v : Value)
  /-- The guarded date comparison; `none` is `=`. -/
  | pathDate (c : Option Value.Cmp) (column : String) (segs : List String) (d : DateTime)
  | not (e : PgCond)
  | all (es : List PgCond)
  | any (es : List PgCond)
  /-- `coalesce(e, false)`. -/
  | coalesce (e : PgCond)

/-! ## Literals -/

namespace Key

def isStr : Key → Bool
  | str _ => true
  | _ => false

def isNumeric : Key → Bool
  | int _ => true
  | float _ => true
  | bool _ => true
  | _ => false

/-- Python can sort the keys: strings, or numbers, or a single key. -/
def sortableKeys (ks : List Key) : Bool :=
  decide (ks.length ≤ 1) || ks.all isStr || ks.all isNumeric

end Key

mutual

/-- Every dict inside the value has keys Python can sort. -/
def Value.sortable : Value → Bool
  | .dict fs => Key.sortableKeys (fs.map Prod.fst) && Value.sortableFields fs
  | .list xs => Value.sortableItems xs
  | .tuple xs => Value.sortableItems xs
  | _ => true

def Value.sortableItems : List Value → Bool
  | [] => true
  | x :: xs => x.sortable && Value.sortableItems xs

def Value.sortableFields : List (Key × Value) → Bool
  | [] => true
  | (_, v) :: fs => v.sortable && Value.sortableFields fs

end

/-- `_jsonb_literal`; the order of the members does not matter to `jsonb`. -/
def jsonbLiteral (v : Value) : Except PyErr Json :=
  if v.sortable then v.toJson else .error .typeError

/-- `_date_to_jsonable`. -/
def dateToJsonable : Value → Value
  | .dateLiteral d => .str d.isoformat
  | .datetime d => .str d.isoformat
  | v => v

/-- `_operand_json_type`. -/
def operandJsonType : Value → String
  | .bool _ => "boolean"
  | .int _ => "number"
  | .float _ => "number"
  | _ => "string"

section Compile

variable (ctx : CompileContext)

/-! ## System keys -/

/-- `_Builder._compile_system_clause`. -/
def pgSystemClause (key : String) (op : Op) (operand : Value) : Except PyErr PgCond :=
  let col := ctx.physical key
  match op with
  | .exists_ => .ok (.const operand.truthy)
  | .in_ => do
      let values ← pyIter operand
      .ok (.coalesce (.columnIn col (values.map systemValue)))
  | .nin => do
      let values ← pyIter operand
      .ok (.any [.isNull col, .columnNotIn col (values.map systemValue)])
  | op =>
      if op = .eq ∧ operand.isTuple then .ok (.const false)
      else if op = .ne ∧ operand.isTuple then .ok (.const true)
      else if operand.isNone then
        if op = .ne then .ok (.isNotNull col) else .ok (.isNull col)
      else if op = .ne then .ok (.any [.isNull col, .columnNe col (systemValue operand)])
      else if op = .eq then .ok (.coalesce (.columnEq col (systemValue operand)))
      else match rangeOp? op with
        | some c => .ok (.coalesce (.columnRange c col (systemValue operand)))
        | none => .error .keyError

/-! ## Metadata -/

section Metadata

variable (segs : List String)

/-- The one-key documents of a path around a leaf. -/
def wrapPath (segs : List String) (leaf : Json) : Json := segs.foldr (fun seg doc => .obj [(seg, doc)]) leaf

/-- `_md_containment`. -/
def pgContainment (value : Value) : Except PyErr PgCond := do
  let leaf ← jsonbLiteral (dateToJsonable value)
  .ok (.any [.contains (ctx.physical "metadata") (wrapPath segs leaf),
    .contains (ctx.physical "metadata") (wrapPath segs (.arr [leaf]))])

/-- `_md_exists`. -/
def pgExists : PgCond :=
  match segs with
  | [key] => .hasKey (ctx.physical "metadata") key
  | segs => .pathPresent (ctx.physical "metadata") segs

/-- `_md_null`. -/
def pgNull : PgCond :=
  .any [.pathEq (ctx.physical "metadata") segs .null, .not (pgExists ctx segs)]

/-- `_md_eq`. -/
def pgEq (operand : Value) : Except PyErr PgCond :=
  match operand with
  | .dateLiteral d => .ok (.coalesce (.pathDate none (ctx.physical "metadata") segs d))
  | .tuple items => do
      let doc ← jsonbLiteral (.list items)
      .ok (.coalesce (.pathEq (ctx.physical "metadata") segs doc))
  | .dict fs => do
      let doc ← jsonbLiteral (.dict fs)
      .ok (.coalesce (.pathEq (ctx.physical "metadata") segs doc))
  | v => pgContainment ctx segs v

/-- `_md_in_element`. -/
def pgInElement (value : Value) : Except PyErr PgCond :=
  match value with
  | .dict fs => do
      let doc ← jsonbLiteral (.dict fs)
      .ok (.coalesce (.any [.pathEq (ctx.physical "metadata") segs doc,
        .pathItemEq (ctx.physical "metadata") segs doc]))
  | v => pgContainment ctx segs v

/-- `_md_range`. -/
def pgRange (c : Value.Cmp) (operand : Value) : PgCond :=
  match operand with
  | .dateLiteral d => .coalesce (.pathDate (some c) (ctx.physical "metadata") segs d)
  | v => .coalesce (.pathRange c (ctx.physical "metadata") segs (operandJsonType v) v)

/-- The metadata clauses below the blob. -/
def pgMetadataPath (op : Op) (operand : Value) : Except PyErr PgCond :=
  match op with
  | .exists_ => .ok (if operand.truthy then pgExists ctx segs else .not (pgExists ctx segs))
  | .in_ =>
      if !operand.truthy then .ok (.const false)
      else do
        let values ← pyIter operand
        let elements ← values.mapM (pgInElement ctx segs)
        .ok (.any elements)
  | .nin =>
      if !operand.truthy then .ok (.const true)
      else do
        let values ← pyIter operand
        let elements ← values.mapM (pgInElement ctx segs)
        .ok (.not (.any elements))
  | .eq => if operand.isNone then .ok (pgNull ctx segs) else pgEq ctx segs operand
  | .ne =>
      if operand.isNone then .ok (.not (pgNull ctx segs)) else PgCond.not <$> pgEq ctx segs operand
  | op => match rangeOp? op with
      | some c => .ok (pgRange ctx segs c operand)
      | none => .error .keyError

/-- `_Builder._compile_metadata_clause`, `none` when it is not expressible. -/
def pgMetadataClause (op : Op) (operand : Value) : Except PyErr (Option PgCond) :=
  match segs with
  | [] =>
      if op = .eq then (fun doc => some (.blobEq (ctx.physical "metadata") doc)) <$> jsonbLiteral operand
      else .ok none
  | segs => some <$> pgMetadataPath ctx segs op operand

end Metadata

/-! ## The compiler -/

/-- PostgreSQL conditions as a target. -/
def postgresTarget : Target PgCond where
  matchAll := .const true
  matchNone := .const false
  all := .all
  any := .any
  neg := .not

/-- `_Builder._clause_consumable`. -/
def postgresConsumable (c : FilterClause) : Bool :=
  match c.systemKey?, c.metadataPath? with
  | some key, _ => ctx.systemKeyDeclared key
  | none, some segs => !segs.isEmpty || c.op == .eq
  | none, none => false

/-- `_Builder.compile_clause`. -/
def compilePostgresClause (c : FilterClause) : Except PyErr (Emitted PgCond) :=
  match c.systemKey?, c.metadataPath? with
  | some key, _ =>
      if ctx.systemKeyDeclared key then c.emit <$> pgSystemClause ctx key c.op c.operand
      else postgresTarget.unsupported ctx c "the backend does not declare a column for this system key"
  | none, some segs =>
      postgresTarget.emitOption ctx c "only $eq is defined on the bare metadata blob"
        (pgMetadataClause ctx segs c.op c.operand)
  | none, none =>
      postgresTarget.unsupported ctx c "path is neither a system key nor a metadata path"

/-- `compile_postgres`. -/
def compilePostgres (t : Ast) : Except PyErr (CompiledFilter PgCond) :=
  compileFilter postgresTarget ctx (postgresConsumable ctx) (compilePostgresClause ctx) t

end Compile

end Khora
