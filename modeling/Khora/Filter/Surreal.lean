import Khora.Filter.Superset

/-!
# The SurrealDB compiler

`compile_surrealdb` lowers an AST to a SurrealQL condition with bound values.  Path
labels are interpolated into the text, so a label that is no identifier is never
pushed down: in split mode the leaf is left to the post-filter, in raise mode the
interpolation guard raises.

* `surrealConsumable` — the gate, `compileSurrealClause` — the emission.
-/

namespace Khora

/-- `_SAFE_SEGMENT_RE`. -/
def safeSegment (seg : String) : Bool :=
  match seg.toList with
  | [] => false
  | c :: cs =>
      let letter (c : Char) : Bool := c.isAlpha || c == '_'
      letter c && cs.all fun c => letter c || c.isDigit

/-- `_segments_safe`. -/
def segmentsSafe (segs : List String) : Bool := segs.all safeSegment

/-- The SurrealQL conditions that are emitted; a field is its dotted labels. -/
inductive SurrealCond where
  | const (b : Bool)
  | isNone (field : List String)
  | isNotNone (field : List String)
  | isNull (field : List String)
  | isNotNull (field : List String)
  | eq (field : List String) (v : Value)
  | ne (field : List String) (v : Value)
  | range (c : Value.Cmp) (field : List String) (v : Value)
  | inside (field : List String) (vs : List Value)
  /-- `field CONTAINS v`. -/
  | contains (field : List String) (v : Value)
  /-- `field CONTAINSANY vs`. -/
  | containsAny (field : List String) (vs : List Value)
  /-- `type::is::gate(field)`. -/
  | typeIs (gate : String) (field : List String)
  | not (e : SurrealCond)
  | all (es : List SurrealCond)
  | any (es : List SurrealCond)

mutual

/-- `_system_value`: a date literal is unwrapped, a tuple binds as a list. -/
def surrealSystemValue : Value → Value
  | .dateLiteral d => .datetime d
  | .tuple xs => .list (surrealSystemValues xs)
  | v => v

def surrealSystemValues : List Value → List Value
  | [] => []
  | x :: xs => surrealSystemValue x :: surrealSystemValues xs

end

mutual

/-- `_metadata_value`: dates bind as ISO text, a tuple as a list. -/
def surrealMetadataValue : Value → Value
  | .dateLiteral d => .str d.isoformat
  | .datetime d => .str d.isoformat
  | .tuple xs => .list (surrealMetadataValues xs)
  | v => v

def surrealMetadataValues : List Value → List Value
  | [] => []
  | x :: xs => surrealMetadataValue x :: surrealMetadataValues xs

end

/-- `_range_gate`. -/
def rangeGate : Value → String
  | .bool _ => "bool"
  | .int _ => "number"
  | .float _ => "number"
  | _ => "string"

section Compile

variable (ctx : CompileContext)

/-- `path[0] in self._declared`: no mapping declares nothing. -/
def surrealDeclared (key : String) : Bool :=
  match ctx.fieldMapping with
  | none => false
  | some m => m.any fun f => f.1 == key

/-- `_system_field`; an empty alias is no alias. -/
def surrealSystemField (key : String) : List String :=
  (ctx.tableAlias.filter fun s => s != "").toList ++ [ctx.physical key]

/-- `_Builder._compile_system_clause`. -/
def surrealSystemClause (key : String) (op : Op) (operand : Value) : Except PyErr SurrealCond :=
  let field := surrealSystemField ctx key
  match op with
  | .exists_ => .ok (.const operand.truthy)
  | .in_ =>
      if !operand.truthy then .ok (.const false)
      else do
        let values ← pyIter operand
        .ok (.inside field (values.map surrealSystemValue))
  | .nin =>
      if !operand.truthy then .ok (.const true)
      else do
        let values ← pyIter operand
        .ok (.not (.inside field (values.map surrealSystemValue)))
  | op =>
      if operand.isNone then
        if op = .ne then .ok (.all [.isNotNone field, .isNotNull field])
        else .ok (.any [.isNull field, .isNone field])
      else if op = .ne then .ok (.ne field (surrealSystemValue operand))
      else if op = .eq then .ok (.eq field (surrealSystemValue operand))
      else match rangeOp? op with
        | some c => .ok (.all [.isNotNone field, .range c field (surrealSystemValue operand)])
        | none => .error .keyError

/-- `_metadata_path`: an unsafe label raises. -/
def surrealMetadataPath (segs : List String) : Except PyErr (List String) :=
  match segs.find? fun seg => !safeSegment seg with
  | some seg => .error (.compileError
      ("unsafe metadata path segment " ++ reprString seg ++ " (not a SurrealQL identifier)"))
  | none => .ok (ctx.physical "metadata" :: segs)

/-- `_md_eq`. -/
def surrealEq (node : List String) (operand : Value) : SurrealCond :=
  let exact := SurrealCond.eq node (surrealMetadataValue operand)
  match operand with
  | .dateLiteral _ => exact
  | .datetime _ => exact
  | .tuple _ => exact
  | .dict _ => exact
  | v => .any [exact, .all [.typeIs "array" node, .contains node (surrealMetadataValue v)]]

/-- `_md_contains_any`. -/
def surrealContainsAny (node : List String) (values : List Value) : SurrealCond :=
  .any [.inside node values, .all [.typeIs "array" node, .containsAny node values]]

/-- `_md_range`. -/
def surrealRange (node : List String) (c : Value.Cmp) (operand : Value) : SurrealCond :=
  match operand with
  | .dateLiteral _ => .all [.typeIs "string" node, .range c node (surrealMetadataValue operand)]
  | .datetime _ => .all [.typeIs "string" node, .range c node (surrealMetadataValue operand)]
  | v => .all [.typeIs (rangeGate v) node, .range c node v]

/-- `_Builder._compile_metadata_clause`, `none` when it is not expressible. -/
def surrealMetadataClause (segs : List String) (op : Op) (operand : Value) :
    Except PyErr (Option SurrealCond) :=
  match segs with
  | [] => .ok (if op = .eq then some (.eq [ctx.physical "metadata"] operand) else none)
  | segs => do
      let node ← surrealMetadataPath ctx segs
      match op with
      | .exists_ => .ok (some (if operand.truthy then .isNotNone node else .isNone node))
      | .in_ =>
          if !operand.truthy then .ok (some (.const false))
          else do
            let values ← pyIter operand
            .ok (some (surrealContainsAny node (values.map surrealMetadataValue)))
      | .nin =>
          if !operand.truthy then .ok (some (.const true))
          else do
            let values ← pyIter operand
            .ok (some (.not (surrealContainsAny node (values.map surrealMetadataValue))))
      | op =>
          if operand.isNone then
            if op = .ne then .ok (some (.all [.isNotNone node, .isNotNull node]))
            else .ok (some (.any [.isNull node, .isNone node]))
          else if op = .eq then .ok (some (surrealEq node operand))
          else if op = .ne then .ok (some (.not (surrealEq node operand)))
          else match rangeOp? op with
            | some c => .ok (some (surrealRange node c operand))
            | none => .error .keyError

/-! ## The compiler -/

/-- SurrealQL conditions as a target. -/
def surrealTarget : Target SurrealCond where
  matchAll := .const true
  matchNone := .const false
  all := .all
  any := .any
  neg := .not

/-- `_Builder._clause_consumable`. -/
def surrealConsumable (c : FilterClause) : Bool :=
  match c.systemKey?, c.metadataPath? with
  | some key, _ => surrealDeclared ctx key
  | none, some [] => c.op == .eq
  | none, some segs => segmentsSafe segs
  | none, none => false

/-- `_Builder.compile_clause`. -/
def compileSurrealClause (c : FilterClause) : Except PyErr (Emitted SurrealCond) :=
  match c.systemKey?, c.metadataPath? with
  | some key, _ =>
      if surrealDeclared ctx key then c.emit <$> surrealSystemClause ctx key c.op c.operand
      else surrealTarget.unsupported ctx c
        ("the surrealdb backend does not back system key " ++ reprString key ++ " with a column")
  | none, some segs =>
      if ctx.isSplit && !segmentsSafe segs then
        surrealTarget.unsupported ctx c "metadata path segment is not a SurrealQL identifier"
      else surrealTarget.emitOption ctx c "only $eq is defined on the bare metadata blob"
        (surrealMetadataClause ctx segs c.op c.operand)
  | none, none =>
      surrealTarget.unsupported ctx c "path is neither a system key nor a metadata path"

/-- `compile_surrealdb`. -/
def compileSurrealdb (t : Ast) : Except PyErr (CompiledFilter SurrealCond) :=
  compileFilter surrealTarget ctx (surrealConsumable ctx) (compileSurrealClause ctx) t

end Compile

end Khora
