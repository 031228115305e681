import Khora.Filter.Model

/-!
# Lowering a document to the AST

`parseToAst` desugars a validated document: bare values become `$eq`, bare lists
become exact-array operands, `$nor` becomes `$not` over `$or`, and `$date` literals
become `DateLiteral` operands.

* `parseToAst_lowers_iff` — an accepted document lowers, to a tree of the promised
  shape, exactly when no operator submodel holds a null `$in`, `$nin` or `$not`,
  every `$date` literal names a UTC instant of the calendar, and every key of the
  folded carrier starts with a system key or `metadata`.
* `Lowered` — the shape: what every compiler may rely on.
-/

namespace Khora

open Calendar (DateTime fromisoformat)

/-! ## Paths -/

/-- `str.split` on one character. -/
def splitOnChar (sep : Char) : List Char → List (List Char)
  | [] => [[]]
  | c :: cs =>
      if c = sep then [] :: splitOnChar sep cs
      else match splitOnChar sep cs with
        | [] => [[c]]
        | s :: ss => (c :: s) :: ss

/-- `tuple(dotted_key.split("."))`. -/
def dottedPath (key : String) : List String := (splitOnChar '.' key.toList).map String.ofList

/-! ## Operands -/

/-- `_make_date_literal`. -/
def makeDateLiteral (raw : Value) : Except PyErr Value :=
  match raw with
  | .str s => match fromisoformat s with
      | none => .error .valueError
      | some d => match d.toUtc with
          | some u => .ok (.dateLiteral u)
          | none => .error .overflowError
  | _ => .error .typeError

/-- `_lower_scalar_operand`. -/
def lowerScalarOperand (operand : Value) : Except PyErr Value :=
  match operand with
  | .dict fs => match soleDate? fs with
      | some v => makeDateLiteral v
      | none => .ok (.dict fs)
  | v => .ok v

def Key.toValue : Key → Value
  | .str s => .str s
  | .int n => .int n
  | .float f => .float f
  | .bool b => .bool b
  | .none => .none

/-- Iteration over a value. -/
def pyIter : Value → Except PyErr (List Value)
  | .list xs => .ok xs
  | .tuple xs => .ok xs
  | .str s => .ok (s.toList.map fun c => .str (String.singleton c))
  | .dict fs => .ok (fs.map fun f => f.1.toValue)
  | _ => .error .typeError

/-- `_lower_operand_list`. -/
def lowerOperandList (operand : Value) : Except PyErr Value := do
  let items ← pyIter operand
  Value.tuple <$> items.mapM lowerScalarOperand

/-- `_negate`. -/
def negate (inner : List Ast) : Ast :=
  .node .not [match inner with
    | [x] => x
    | _ => .node .and inner]

/-! ## Metadata predicates -/

/-- `Op(op_key)`. -/
def opOfKey? : Key → Option Op
  | .str s => Op.ofText? s
  | _ => none

mutual

/-- One operator of an operator expression. -/
def lowerMetadataOperator (path : List String) (key : Key) (operand : Value) : Except PyErr Ast :=
  match opOfKey? key, operand with
  | none, _ => .error .valueError
  | some .not, .dict fs => negate <$> lowerMetadataOperatorExpr path fs
  | some .not, _ => .error .attributeError
  | some .in_, v => (fun o => .clause ⟨path, .in_, o⟩) <$> lowerOperandList v
  | some .nin, v => (fun o => .clause ⟨path, .nin, o⟩) <$> lowerOperandList v
  | some .exists_, v => .ok (.clause ⟨path, .exists_, v⟩)
  | some op, v => (fun o => .clause ⟨path, op, o⟩) <$> lowerScalarOperand v

/-- `_lower_metadata_operator_expr`. -/
def lowerMetadataOperatorExpr (path : List String) (expr : List (Key × Value)) :
    Except PyErr (List Ast) :=
  match expr with
  | [] => .ok []
  | (k, v) :: fs => do
      let a ← lowerMetadataOperator path k v
      let as ← lowerMetadataOperatorExpr path fs
      .ok (a :: as)

end

/-- `_lower_metadata_predicate`. -/
def lowerMetadataPredicate (path : List String) (predicate : Value) : Except PyErr (List Ast) :=
  match predicate with
  | .list xs => .ok [.clause ⟨path, .eq, .tuple xs⟩]
  | .dict [] => .ok [.clause ⟨path, .eq, .dict []⟩]
  | .dict fs =>
      if !fs.any (fun f => f.1.isDollar) then .ok [.clause ⟨path, .eq, .dict fs⟩]
      else match soleDate? fs with
        | some v => (fun o => [.clause ⟨path, .eq, o⟩]) <$> makeDateLiteral v
        | none => lowerMetadataOperatorExpr path fs
  | v => .ok [.clause ⟨path, .eq, v⟩]

/-! ## System keys -/

/-- A scalar operator field; an explicit null is carried as `None`. -/
def lowerScalarField (path : List String) (op : Op) : Field Value → List Ast
  | .unset => []
  | .null => [.clause ⟨path, op, .none⟩]
  | .value v => [.clause ⟨path, op, v⟩]

/-- A list operator field: `tuple(operand)`, which raises on `None`. -/
def lowerListField (path : List String) (op : Op) : Field (List Value) → Except PyErr (List Ast)
  | .unset => .ok []
  | .null => .error .typeError
  | .value vs => .ok [.clause ⟨path, op, .tuple vs⟩]

mutual

/-- `_lower_ops_submodel` on `StringOps`. -/
def lowerStringOps (path : List String) : StringOps → Except PyErr (List Ast)
  | ⟨eq, ne, in_, nin, exists_, not_⟩ => do
      let in_ ← lowerListField path .in_ (in_.map fun ss => ss.map Value.str)
      let nin ← lowerListField path .nin (nin.map fun ss => ss.map Value.str)
      let not_ ← lowerStringNegated path not_
      .ok (lowerScalarField path .eq (eq.map Value.str) ++
        lowerScalarField path .ne (ne.map Value.str) ++ in_ ++ nin ++
        lowerScalarField path .exists_ (exists_.map Value.bool) ++ not_)

def lowerStringNegated (path : List String) : Field StringOps → Except PyErr (List Ast)
  | .unset => .ok []
  | .null => .error .attributeError
  | .value o => (fun inner => [negate inner]) <$> lowerStringOps path o

end

mutual

/-- `_lower_ops_submodel` on `DateOps`. -/
def lowerDateOps (path : List String) : DateOps → Except PyErr (List Ast)
  | ⟨eq, ne, gt, gte, lt, lte, in_, nin, not_⟩ => do
      let in_ ← lowerListField path .in_ (in_.map fun ds => ds.map Value.datetime)
      let nin ← lowerListField path .nin (nin.map fun ds => ds.map Value.datetime)
      let not_ ← lowerDateNegated path not_
      .ok (lowerScalarField path .eq (eq.map Value.datetime) ++
        lowerScalarField path .ne (ne.map Value.datetime) ++
        lowerScalarField path .gt (gt.map Value.datetime) ++
        lowerScalarField path .gte (gte.map Value.datetime) ++
        lowerScalarField path .lt (lt.map Value.datetime) ++
        lowerScalarField path .lte (lte.map Value.datetime) ++ in_ ++ nin ++ not_)

def lowerDateNegated (path : List String) : Field DateOps → Except PyErr (List Ast)
  | .unset => .ok []
  | .null => .error .attributeError
  | .value o => (fun inner => [negate inner]) <$> lowerDateOps path o

end

/-- `_lower_system_key` on a date key. -/
def lowerDateKey (k : DateKey) : Field DatePredicate → Except PyErr (List Ast)
  | .unset => .ok []
  | .null => .ok [.clause ⟨[k.name], .eq, .none⟩]
  | .value (.datetime d) => .ok [.clause ⟨[k.name], .eq, .datetime d⟩]
  | .value (.ops o) => lowerDateOps [k.name] o

/-- `_lower_system_key` on a string key. -/
def lowerStringKey (k : StringKey) : Field StringPredicate → Except PyErr (List Ast)
  | .unset => .ok []
  | .null => .ok [.clause ⟨[k.name], .eq, .none⟩]
  | .value (.str s) => .ok [.clause ⟨[k.name], .eq, .str s⟩]
  | .value (.list ss) => .ok [.clause ⟨[k.name], .eq, .tuple (ss.map Value.str)⟩]
  | .value (.ops o) => lowerStringOps [k.name] o

/-! ## Documents -/

/-- The bare metadata blob: whole-document equality. -/
def lowerBlob : Field (List (String × Value)) → List Ast
  | .value fs => [.clause ⟨["metadata"], .eq, .dict (fs.map fun f => (.str f.1, f.2))⟩]
  | _ => []

/-- The siblings of one document that are not logical operators. -/
def lowerFields (dates : DateKey → Field DatePredicate)
    (strings : StringKey → Field StringPredicate) (metadata : Field (List (String × Value)))
    (folded : List (String × Value)) : Except PyErr (List Ast) := do
  let dateClauses ← DateKey.all.mapM fun k => lowerDateKey k (dates k)
  let stringClauses ← StringKey.all.mapM fun k => lowerStringKey k (strings k)
  let foldedClauses ← folded.mapM fun p => lowerMetadataPredicate (dottedPath p.1) p.2
  .ok (dateClauses.flatten ++ stringClauses.flatten ++ lowerBlob metadata ++ foldedClauses.flatten)

/-- The node of a logical array; `$nor` is `$not` over `$or`. -/
def logicalNode (build : List Ast → Ast) : Option (List Ast) → List Ast
  | none => []
  | some cs => [build cs]

mutual

/-- `parse_to_ast`, with `_lower_filter`. -/
def parseToAst : RecallFilter → Except PyErr Ast
  | ⟨dates, strings, metadata, and_, or_, nor_, not_, folded⟩ => do
      let fields ← lowerFields dates strings metadata folded
      let and_ ← lowerBranches and_
      let or_ ← lowerBranches or_
      let nor_ ← lowerBranches nor_
      let not_ ← lowerNegated not_
      .ok (Ast.normalize (.node .and (fields ++ logicalNode (.node .and) and_ ++
        logicalNode (.node .or) or_ ++
        logicalNode (fun cs => .node .not [.node .or cs]) nor_ ++
        logicalNode (.node .not) not_)))

/-- `_lower_branches`, when the array is present. -/
def lowerBranches : Field (List RecallFilter) → Except PyErr (Option (List Ast))
  | .unset => .ok none
  | .null => .ok none
  | .value fs => some <$> parseAll fs

def parseAll : List RecallFilter → Except PyErr (List Ast)
  | [] => .ok []
  | f :: fs => do
      let a ← parseToAst f
      let as ← parseAll fs
      .ok (a :: as)

/-- The operand of a document-form `$not`, as a one-element list. -/
def lowerNegated : Field RecallFilter → Except PyErr (Option (List Ast))
  | .unset => .ok none
  | .null => .ok none
  | .value f => (fun a => some [a]) <$> parseToAst f

end

/-! ## The promised shape -/

/-- The operators a clause may carry. -/
def clauseOps : List Op := [.eq, .ne, .gt, .gte, .lt, .lte, .in_, .nin, .exists_]

/-- The operator of a clause is a comparison, a list operator has a tuple, and `$exists` a
bool or an explicit null. -/
structure OpShape (c : FilterClause) : Prop where
  op_mem : c.op ∈ clauseOps
  tuple : (c.op = .in_ ∨ c.op = .nin) → ∃ xs, c.operand = .tuple xs
  exists_operand : c.op = .exists_ → c.operand = .none ∨ ∃ b, c.operand = .bool b

/-- The first segment is a system key or `metadata`. -/
def RootedPath (path : List String) : Prop :=
  ∃ root rest, path = root :: rest ∧ (root ∈ systemKeys ∨ root = "metadata")

/-- The shape every lowered tree has. -/
structure Lowered (t : Ast) : Prop where
  isNode : ∃ op cs, t = .node op cs
  wellFormed : t.wellFormed = true
  rooted : ∀ c ∈ t.leaves, RootedPath c.path
  shaped : ∀ c ∈ t.leaves, OpShape c

/-- A subtree over one path. -/
structure Shaped (path : List String) (t : Ast) : Prop where
  wellFormed : t.wellFormed = true
  orsFilled : t.orsFilled = true
  path_eq : ∀ c ∈ t.leaves, c.path = path
  shaped : ∀ c ∈ t.leaves, OpShape c

section Shape

variable {path : List String}

theorem shaped_clause {op : Op} {v : Value} (h : OpShape ⟨path, op, v⟩) :
    Shaped path (.clause ⟨path, op, v⟩) where
  wellFormed := rfl
  orsFilled := rfl
  path_eq := by simp
  shaped := by simpa using h

theorem shaped_scalar {op : Op} {v : Value} (h : op ∈ [Op.eq, .ne, .gt, .gte, .lt, .lte]) :
    Shaped path (.clause ⟨path, op, v⟩) := by
  refine shaped_clause ⟨?_, ?_, ?_⟩
  · show op ∈ clauseOps
    revert h
    cases op <;> decide
  · rintro (rfl | rfl) <;> exact absurd h (by decide)
  · rintro rfl
    exact absurd h (by decide)

theorem shaped_tuple {op : Op} {vs : List Value} (h : op = .in_ ∨ op = .nin) :
    Shaped path (.clause ⟨path, op, .tuple vs⟩) := by
  refine shaped_clause ⟨?_, fun _ => ⟨vs, rfl⟩, ?_⟩
  · show op ∈ clauseOps
    rcases h with rfl | rfl <;> decide
  · rintro rfl
    rcases h with h | h <;> cases h

theorem shaped_exists {v : Value} (h : v = .none ∨ ∃ b, v = .bool b) :
    Shaped path (.clause ⟨path, .exists_, v⟩) := by
  refine shaped_clause ⟨?_, ?_, fun _ => h⟩
  · show Op.exists_ ∈ clauseOps
    decide
  · rintro (h | h) <;> cases h

theorem leaves_negate (inner : List Ast) : (negate inner).leaves = inner.flatMap Ast.leaves := by
  unfold negate
  split <;> simp

theorem shaped_negate {inner : List Ast} (h : ∀ a ∈ inner, Shaped path a) :
    Shaped path (negate inner) where
  wellFormed := by
    unfold negate
    refine Ast.wellFormed_not.mpr ⟨_, rfl, ?_⟩
    split
    · exact (h _ (by simp)).wellFormed
    · exact Ast.wellFormed_and.mpr fun a ha => (h a ha).wellFormed
  orsFilled := by
    unfold negate
    refine Ast.orsFilled_node.mpr ⟨by simp, ?_⟩
    rw [List.forall_mem_singleton]
    split
    · exact (h _ (by simp)).orsFilled
    · exact Ast.orsFilled_node.mpr ⟨by simp, fun a ha => (h a ha).orsFilled⟩
  path_eq := by
    intro c hc
    rw [leaves_negate] at hc
    obtain ⟨a, ha, hca⟩ := List.mem_flatMap.mp hc
    exact (h a ha).path_eq c hca
  shaped := by
    intro c hc
    rw [leaves_negate] at hc
    obtain ⟨a, ha, hca⟩ := List.mem_flatMap.mp hc
    exact (h a ha).shaped c hca

end Shape

/-! ## When a metadata predicate lowers -/

open Fallible

/-- The instant of a `$date` operand lies within the calendar. -/
def DateConvertible (raw : Value) : Prop :=
  ∀ s d, raw = .str s → fromisoformat s = some d → d.Convertible

/-- So it is for the operand itself, if it is a `$date` literal. -/
def OperandConvertible (operand : Value) : Prop :=
  ∀ fs raw, operand = .dict fs → soleDate? fs = some raw → DateConvertible raw

mutual

/-- And for every `$date` literal in operand position under an operator. -/
def OperatorConvertible (key : Key) (operand : Value) : Prop :=
  match opOfKey? key, operand with
  | some .not, .dict fs => ExprConvertible fs
  | some .in_, .list items => ∀ item ∈ items, OperandConvertible item
  | some .nin, .list items => ∀ item ∈ items, OperandConvertible item
  | some .exists_, _ => True
  | _, v => OperandConvertible v

def ExprConvertible (expr : List (Key × Value)) : Prop :=
  match expr with
  | [] => True
  | (k, v) :: fs => OperatorConvertible k v ∧ ExprConvertible fs

end

def PredicateConvertible (predicate : Value) : Prop :=
  match predicate with
  | .dict fs =>
      if !fs.any (fun f => f.1.isDollar) then True
      else match soleDate? fs with
        | some raw => DateConvertible raw
        | none => ExprConvertible fs
  | _ => True

theorem makeDateLiteral_iff {raw : Value} {loc : String} (h : parseDateLiteral raw loc = .ok ()) :
    ReturnsIff (makeDateLiteral raw) (DateConvertible raw) fun _ => True := by
  cases raw
  case str s =>
      cases hs : fromisoformat s with
      | none => simp [parseDateLiteral, hs, raiseField] at h
      | some d =>
          have hcond : DateConvertible (.str s) ↔ d.Convertible := by
            constructor
            · exact fun hc => hc s d rfl hs
            · rintro hc s' d' heq hd'
              cases heq
              rw [hs] at hd'
              cases hd'
              exact hc
          rw [hcond]
          simp only [makeDateLiteral, hs]
          by_cases hc : d.Convertible
          · obtain ⟨u, hu, -⟩ := d.toUtc_spec.1 hc
            rw [hu]
            exact (ReturnsIff.ok trivial).congr (by simp [hc]) fun _ h => h
          · rw [d.toUtc_spec.2 hc]
            exact ReturnsIff.error.congr (by simp [hc]) fun _ h => h
  all_goals simp [parseDateLiteral, raiseField] at h

theorem lowerScalarOperand_iff {operand : Value} {loc : String}
    (h : checkLiteralOperand operand loc = .ok ()) :
    ReturnsIff (lowerScalarOperand operand) (OperandConvertible operand) fun _ => True := by
  cases operand
  case dict fs =>
      simp only [checkLiteralOperand] at h
      simp only [lowerScalarOperand]
      cases hs : soleDate? fs with
      | none =>
          refine (ReturnsIff.ok trivial).congr (iff_of_true trivial ?_) fun _ h => h
          rintro gs raw heq hraw
          cases heq
          rw [hs] at hraw
          cases hraw
      | some raw =>
          rw [hs] at h
          refine (makeDateLiteral_iff h).congr ⟨?_, fun hc => hc fs raw rfl hs⟩ fun _ h => h
          rintro hc gs raw' heq hraw
          cases heq
          rw [hs] at hraw
          cases hraw
          exact hc
  all_goals
    refine (ReturnsIff.ok trivial).congr (iff_of_true trivial ?_) fun _ h => h
    rintro gs raw heq
    cases heq

theorem lowerOperandList_iff {items : List Value} {loc : String}
    (h : checkLiteralOperands items loc = .ok ()) :
    ReturnsIff (lowerOperandList (.list items)) (∀ item ∈ items, OperandConvertible item)
      fun v => ∃ xs, v = .tuple xs := by
  have hall := forM_eq_ok.mp h
  have hmap := ReturnsIff.mapM fun item hitem => lowerScalarOperand_iff (hall item hitem)
  exact hmap.map fun xs _ => ⟨xs, rfl⟩

theorem Key.eq_str_of_isDollar {k : Key} (h : k.isDollar = true) : ∃ s, k = .str s := by
  cases k with
  | str s => exact ⟨s, rfl⟩
  | _ => simp [Key.isDollar] at h

/-- What a metadata operator lowers to: a shaped subtree with at least one leaf. -/
def ShapedLeafy (path : List String) (t : Ast) : Prop := Shaped path t ∧ t.leaves ≠ []

theorem shapedLeafy_negate {path : List String} {inner : List Ast}
    (h : ∀ a ∈ inner, ShapedLeafy path a) (hne : inner ≠ []) : ShapedLeafy path (negate inner) := by
  refine ⟨shaped_negate fun a ha => (h a ha).1, ?_⟩
  rw [leaves_negate]
  obtain ⟨a, as, rfl⟩ := List.exists_cons_of_ne_nil hne
  simp [(h a (by simp)).2]

section OperatorEquations

variable (path : List String) (key : Key) (v : Value)

theorem lowerMetadataOperator_not (fs : List (Key × Value)) (h : opOfKey? key = some .not) :
    lowerMetadataOperator path key (.dict fs) = negate <$> lowerMetadataOperatorExpr path fs ∧
      (OperatorConvertible key (.dict fs) ↔ ExprConvertible fs) := by
  rw [lowerMetadataOperator.eq_def, OperatorConvertible.eq_def, h]
  exact ⟨rfl, Iff.rfl⟩

theorem lowerMetadataOperator_list {op : Op} (items : List Value) (h : opOfKey? key = some op)
    (hop : op = .in_ ∨ op = .nin) :
    lowerMetadataOperator path key (.list items) =
        (fun o => .clause ⟨path, op, o⟩) <$> lowerOperandList (.list items) ∧
      (OperatorConvertible key (.list items) ↔ ∀ item ∈ items, OperandConvertible item) := by
  rw [lowerMetadataOperator.eq_def, OperatorConvertible.eq_def, h]
  rcases hop with rfl | rfl <;> exact ⟨rfl, Iff.rfl⟩

theorem lowerMetadataOperator_exists (h : opOfKey? key = some .exists_) :
    lowerMetadataOperator path key v = .ok (.clause ⟨path, .exists_, v⟩) ∧
      (OperatorConvertible key v ↔ True) := by
  rw [lowerMetadataOperator.eq_def, OperatorConvertible.eq_def, h]
  exact ⟨rfl, Iff.rfl⟩

theorem lowerMetadataOperator_scalar {op : Op} (h : opOfKey? key = some op)
    (hop : op ∈ [Op.eq, .ne, .gt, .gte, .lt, .lte]) :
    lowerMetadataOperator path key v = (fun o => .clause ⟨path, op, o⟩) <$> lowerScalarOperand v ∧
      (OperatorConvertible key v ↔ OperandConvertible v) := by
  rw [lowerMetadataOperator.eq_def, OperatorConvertible.eq_def, h]
  simp only [List.mem_cons, List.not_mem_nil, or_false] at hop
  rcases hop with rfl | rfl | rfl | rfl | rfl | rfl <;> exact ⟨rfl, Iff.rfl⟩

end OperatorEquations

mutual

theorem lowerMetadataOperator_iff {path : List String} {s loc : String} :
    ∀ {operand : Value}, OperatorAccepted s loc operand →
      ReturnsIff (lowerMetadataOperator path (.str s) operand)
        (OperatorConvertible (.str s) operand) (ShapedLeafy path)
  | .dict fs, .not _ hop hne hdollar hwalk => by
      obtain ⟨heq, hcond⟩ := lowerMetadataOperator_not path (.str s) fs hop
      rw [heq, hcond]
      exact (lowerMetadataOperatorExpr_iff hwalk hdollar).map fun as has =>
        shapedLeafy_negate has.1 (has.2 hne)
  | .list items, .list op _ hop hlist hitems => by
      obtain ⟨heq, hcond⟩ := lowerMetadataOperator_list path (.str s) items hop hlist
      rw [heq, hcond]
      refine (lowerOperandList_iff hitems).map ?_
      rintro v ⟨xs, rfl⟩
      exact ⟨shaped_tuple hlist, by simp⟩
  | .bool b, .exists_ _ hop => by
      obtain ⟨heq, hcond⟩ := lowerMetadataOperator_exists path (.str s) (.bool b) hop
      rw [heq, hcond]
      exact ReturnsIff.ok ⟨shaped_exists (.inr ⟨b, rfl⟩), by simp⟩
  | operand, .scalar op _ hop hscalar hcheck => by
      obtain ⟨heq, hcond⟩ := lowerMetadataOperator_scalar path (.str s) operand hop
        hscalar
      rw [heq, hcond]
      exact (lowerScalarOperand_iff hcheck).map fun v _ => ⟨shaped_scalar hscalar, by simp⟩

theorem lowerMetadataOperatorExpr_iff {path : List String} {loc : String} :
    ∀ {expr : List (Key × Value)}, walkOperators expr loc = .ok () →
      (∀ f ∈ expr, f.1.isDollar = true) →
      ReturnsIff (lowerMetadataOperatorExpr path expr) (ExprConvertible expr)
        fun as => (∀ a ∈ as, ShapedLeafy path a) ∧ (expr ≠ [] → as ≠ [])
  | [], _, _ => by
      rw [lowerMetadataOperatorExpr, ExprConvertible]
      exact ReturnsIff.ok ⟨by simp, by simp⟩
  | (k, v) :: fs, h, hdollar => by
      rw [walkOperators] at h
      obtain ⟨⟨⟩, hop, hrest⟩ := bind_eq_ok.mp h
      obtain ⟨s, rfl⟩ := Key.eq_str_of_isDollar (hdollar (k, v) (by simp))
      rw [lowerMetadataOperatorExpr, ExprConvertible]
      refine (lowerMetadataOperator_iff (walkOperator_ok_cases hop)).bind fun a ha => ?_
      refine ((lowerMetadataOperatorExpr_iff hrest fun f hf => hdollar f (List.mem_cons_of_mem _ hf)).bind
        fun as has => ReturnsIff.ok ⟨?_, by simp⟩).congr (and_iff_left trivial) fun _ h => h
      exact List.forall_mem_cons.mpr ⟨ha, has.1⟩

end

theorem lowerMetadataPredicate_iff {path : List String} {predicate : Value} {loc : String}
    (h : walkPredicate predicate loc = .ok ()) :
    ReturnsIff (lowerMetadataPredicate path predicate) (PredicateConvertible predicate)
      fun as => (∀ a ∈ as, ShapedLeafy path a) ∧ as ≠ [] := by
  have hone : ∀ v : Value, ReturnsIff (.ok [Ast.clause ⟨path, .eq, v⟩] : Except PyErr (List Ast))
      True fun as => (∀ a ∈ as, ShapedLeafy path a) ∧ as ≠ [] := by
    intro v
    refine ReturnsIff.ok ⟨?_, by simp⟩
    simpa using ⟨shaped_scalar (by decide), by simp⟩
  cases predicate
  case dict fs =>
      cases fs with
      | nil => exact hone _
      | cons f fs =>
          simp only [walkPredicate] at h
          simp only [lowerMetadataPredicate, PredicateConvertible]
          split at h
          · simp [raiseField] at h
          · rename_i hmixed
            split at h
            · rename_i hplain
              rw [if_pos hplain, if_pos hplain]
              exact hone _
            · rename_i hplain
              rw [if_neg hplain, if_neg hplain]
              cases hs : soleDate? (f :: fs) with
              | some raw =>
                  rw [hs] at h
                  refine (makeDateLiteral_iff h).map fun v _ => ⟨?_, by simp⟩
                  simpa using ⟨shaped_scalar (by decide), by simp⟩
              | none =>
                  rw [hs] at h
                  have hdollar : ∀ g ∈ f :: fs, g.1.isDollar = true := by
                    intro g hg
                    by_contra hng
                    have hany : (f :: fs).any (fun f => f.1.isDollar) = true := by
                      rwa [Bool.not_eq_true', Bool.not_eq_false] at hplain
                    refine hmixed (Bool.and_eq_true_iff.mpr ⟨hany, ?_⟩)
                    exact List.any_eq_true.mpr ⟨g, hg, by simpa using hng⟩
                  exact (lowerMetadataOperatorExpr_iff h hdollar).congr Iff.rfl
                    fun as has => ⟨has.1, has.2 (by simp)⟩
  all_goals exact hone _

/-! ## When a system key lowers -/

/-- A list operator field that is not an explicit null. -/
def Field.NotNull {α : Type} : Field α → Prop
  | null => False
  | _ => True

mutual

/-- No null `$in`, `$nin` or `$not` at any depth. -/
def StringOps.NoNull : StringOps → Prop
  | ⟨_, _, in_, nin, _, not_⟩ => in_.NotNull ∧ nin.NotNull ∧ StringNegatedNoNull not_

def StringNegatedNoNull : Field StringOps → Prop
  | .unset => True
  | .null => False
  | .value o => o.NoNull

end

mutual

/-- No null `$in`, `$nin` or `$not` at any depth. -/
def DateOps.NoNull : DateOps → Prop
  | ⟨_, _, _, _, _, _, in_, nin, not_⟩ => in_.NotNull ∧ nin.NotNull ∧ DateNegatedNoNull not_

def DateNegatedNoNull : Field DateOps → Prop
  | .unset => True
  | .null => False
  | .value o => o.NoNull

end

def DatePredicate.NoNull : DatePredicate → Prop
  | .datetime _ => True
  | .ops o => o.NoNull

def StringPredicate.NoNull : StringPredicate → Prop
  | .str _ => True
  | .list _ => True
  | .ops o => o.NoNull

section SystemKeys

variable {path : List String}

theorem lowerListField_iff {α : Type} {op : Op} (h : op = .in_ ∨ op = .nin) (g : α → List Value)
    (f : Field α) :
    ReturnsIff (lowerListField path op (f.map g)) f.NotNull fun as => ∀ a ∈ as, Shaped path a := by
  cases f with
  | unset => exact ReturnsIff.ok (by simp)
  | null => exact ReturnsIff.error
  | value a => exact ReturnsIff.ok (by simpa using shaped_tuple h)

theorem shaped_lowerScalarField {op : Op} (h : op ∈ [Op.eq, .ne, .gt, .gte, .lt, .lte])
    (f : Field Value) : ∀ a ∈ lowerScalarField path op f, Shaped path a := by
  cases f with
  | unset => simp [lowerScalarField]
  | null => simpa [lowerScalarField] using shaped_scalar h
  | value v => simpa [lowerScalarField] using shaped_scalar h

theorem shaped_lowerExistsField (f : Field Bool) :
    ∀ a ∈ lowerScalarField path .exists_ (f.map Value.bool), Shaped path a := by
  cases f with
  | unset => simp [lowerScalarField, Field.map]
  | null => simpa [lowerScalarField, Field.map] using shaped_exists (.inl rfl)
  | value b => simpa [lowerScalarField, Field.map] using shaped_exists (.inr ⟨b, rfl⟩)

mutual

theorem lowerStringOps_iff : ∀ o : StringOps,
    ReturnsIff (lowerStringOps path o) o.NoNull fun as => ∀ a ∈ as, Shaped path a
  | ⟨eq, ne, in_, nin, exists_, not_⟩ => by
      rw [lowerStringOps, StringOps.NoNull]
      refine (lowerListField_iff (.inl rfl) _ in_).bind fun as has => ?_
      refine (lowerListField_iff (.inr rfl) _ nin).bind fun bs hbs => ?_
      refine ((lowerStringNegated_iff not_).bind fun cs hcs => ReturnsIff.ok ?_).congr
        (and_iff_left trivial) fun _ h => h
      simp only [List.forall_mem_append]
      exact ⟨⟨⟨⟨⟨shaped_lowerScalarField (by decide) _, shaped_lowerScalarField (by decide) _⟩, has⟩,
        hbs⟩, shaped_lowerExistsField _⟩, hcs⟩

theorem lowerStringNegated_iff : ∀ o : Field StringOps,
    ReturnsIff (lowerStringNegated path o) (StringNegatedNoNull o) fun as => ∀ a ∈ as, Shaped path a
  | .unset => ReturnsIff.ok (by simp)
  | .null => ReturnsIff.error
  | .value o => (lowerStringOps_iff o).map fun as has => by simpa using shaped_negate has

end

mutual

theorem lowerDateOps_iff : ∀ o : DateOps,
    ReturnsIff (lowerDateOps path o) o.NoNull fun as => ∀ a ∈ as, Shaped path a
  | ⟨eq, ne, gt, gte, lt, lte, in_, nin, not_⟩ => by
      rw [lowerDateOps, DateOps.NoNull]
      refine (lowerListField_iff (.inl rfl) _ in_).bind fun as has => ?_
      refine (lowerListField_iff (.inr rfl) _ nin).bind fun bs hbs => ?_
      refine ((lowerDateNegated_iff not_).bind fun cs hcs => ReturnsIff.ok ?_).congr
        (and_iff_left trivial) fun _ h => h
      simp only [List.forall_mem_append]
      exact ⟨⟨⟨⟨⟨⟨⟨⟨shaped_lowerScalarField (by decide) _, shaped_lowerScalarField (by decide) _⟩,
        shaped_lowerScalarField (by decide) _⟩, shaped_lowerScalarField (by decide) _⟩,
        shaped_lowerScalarField (by decide) _⟩, shaped_lowerScalarField (by decide) _⟩, has⟩, hbs⟩,
        hcs⟩

theorem lowerDateNegated_iff : ∀ o : Field DateOps,
    ReturnsIff (lowerDateNegated path o) (DateNegatedNoNull o) fun as => ∀ a ∈ as, Shaped path a
  | .unset => ReturnsIff.ok (by simp)
  | .null => ReturnsIff.error
  | .value o => (lowerDateOps_iff o).map fun as has => by simpa using shaped_negate has

end

end SystemKeys

/-! ## When a document lowers -/

mutual

/-- Every part of the document that lowering converts can be converted. -/
def RecallFilter.Convertible : RecallFilter → Prop
  | ⟨dates, strings, _, and_, or_, nor_, not_, folded⟩ =>
      (∀ k p, dates k = .value p → p.NoNull) ∧ (∀ k p, strings k = .value p → p.NoNull) ∧
      (∀ p ∈ folded, PredicateConvertible p.2) ∧
      BranchesConvertible and_ ∧ BranchesConvertible or_ ∧ BranchesConvertible nor_ ∧
      NegatedConvertible not_

def BranchesConvertible : Field (List RecallFilter) → Prop
  | .unset => True
  | .null => True
  | .value fs => AllConvertible fs

def AllConvertible : List RecallFilter → Prop
  | [] => True
  | f :: fs => f.Convertible ∧ AllConvertible fs

def NegatedConvertible : Field RecallFilter → Prop
  | .unset => True
  | .null => True
  | .value f => f.Convertible

end

mutual

/-- Every key of every folded carrier starts with a system key or `metadata`. -/
def RecallFilter.Rooted : RecallFilter → Prop
  | ⟨_, _, _, and_, or_, nor_, not_, folded⟩ =>
      (∀ p ∈ folded, RootedPath (dottedPath p.1)) ∧
      BranchesRooted and_ ∧ BranchesRooted or_ ∧ BranchesRooted nor_ ∧ NegatedRooted not_

def BranchesRooted : Field (List RecallFilter) → Prop
  | .unset => True
  | .null => True
  | .value fs => AllRooted fs

def AllRooted : List RecallFilter → Prop
  | [] => True
  | f :: fs => f.Rooted ∧ AllRooted fs

def NegatedRooted : Field RecallFilter → Prop
  | .unset => True
  | .null => True
  | .value f => f.Rooted

end

/-- A list of lowered siblings, and the condition for their paths to be rooted. -/
structure Siblings (ts : List Ast) (rooted : Prop) : Prop where
  wellFormed : ∀ t ∈ ts, t.wellFormed = true
  orsFilled : ∀ t ∈ ts, t.orsFilled = true
  shaped : ∀ c ∈ ts.flatMap Ast.leaves, OpShape c
  rooted_iff : (∀ c ∈ ts.flatMap Ast.leaves, RootedPath c.path) ↔ rooted

namespace Siblings

variable {ts us : List Ast} {p q : Prop}

theorem nil : Siblings [] True where
  wellFormed := by simp
  orsFilled := by simp
  shaped := by simp
  rooted_iff := by simp

theorem append (h : Siblings ts p) (h' : Siblings us q) : Siblings (ts ++ us) (p ∧ q) where
  wellFormed := List.forall_mem_append.mpr ⟨h.wellFormed, h'.wellFormed⟩
  orsFilled := List.forall_mem_append.mpr ⟨h.orsFilled, h'.orsFilled⟩
  shaped := by
    rw [List.flatMap_append]
    exact List.forall_mem_append.mpr ⟨h.shaped, h'.shaped⟩
  rooted_iff := by
    rw [List.flatMap_append, List.forall_mem_append, h.rooted_iff, h'.rooted_iff]

theorem congr (h : Siblings ts p) (hpq : p ↔ q) : Siblings ts q :=
  ⟨h.wellFormed, h.orsFilled, h.shaped, h.rooted_iff.trans hpq⟩

theorem of_shaped {path : List String} (h : ∀ t ∈ ts, Shaped path t) (hp : RootedPath path) :
    Siblings ts True where
  wellFormed := fun t ht => (h t ht).wellFormed
  orsFilled := fun t ht => (h t ht).orsFilled
  shaped := by
    intro c hc
    obtain ⟨t, ht, hct⟩ := List.mem_flatMap.mp hc
    exact (h t ht).shaped c hct
  rooted_iff := by
    refine iff_of_true (fun c hc => ?_) trivial
    obtain ⟨t, ht, hct⟩ := List.mem_flatMap.mp hc
    rw [(h t ht).path_eq c hct]
    exact hp

theorem of_shapedLeafy {path : List String} (h : ∀ t ∈ ts, ShapedLeafy path t) (hne : ts ≠ []) :
    Siblings ts (RootedPath path) where
  wellFormed := fun t ht => (h t ht).1.wellFormed
  orsFilled := fun t ht => (h t ht).1.orsFilled
  shaped := by
    intro c hc
    obtain ⟨t, ht, hct⟩ := List.mem_flatMap.mp hc
    exact (h t ht).1.shaped c hct
  rooted_iff := by
    constructor
    · intro hall
      obtain ⟨t, us, rfl⟩ := List.exists_cons_of_ne_nil hne
      obtain ⟨hshape, hleaf⟩ := h t (by simp)
      obtain ⟨c, cs, hcs⟩ := List.exists_cons_of_ne_nil hleaf
      have hc : c ∈ t.leaves := by simp [hcs]
      rw [← hshape.path_eq c hc]
      exact hall c (by simp [hc])
    · intro hp c hc
      obtain ⟨t, ht, hct⟩ := List.mem_flatMap.mp hc
      rw [(h t ht).1.path_eq c hct]
      exact hp

theorem flatten {α : Type} {l : List α} {tss : List (List Ast)} {r : α → Prop}
    (h : List.Forall₂ (fun a ts => Siblings ts (r a)) l tss) :
    Siblings tss.flatten (∀ a ∈ l, r a) := by
  induction h with
  | nil => exact nil.congr (by simp)
  | cons ha _ ih =>
      rw [List.flatten_cons]
      exact (ha.append ih).congr List.forall_mem_cons.symm

/-- Siblings under an `$and`, or under an `$or` if there are any. -/
theorem node {op : Op} (hop : op = .and ∨ op = .or ∧ ts ≠ []) (h : Siblings ts p) :
    Siblings [.node op ts] p where
  wellFormed := by
    rcases hop with rfl | ⟨rfl, -⟩
    · simpa using Ast.wellFormed_and.mpr h.wellFormed
    · simpa using Ast.wellFormed_or.mpr h.wellFormed
  orsFilled := by
    rw [List.forall_mem_singleton, Ast.orsFilled_node]
    refine ⟨?_, h.orsFilled⟩
    rcases hop with rfl | ⟨-, hne⟩
    · simp
    · exact fun _ => hne
  shaped := by simpa using h.shaped
  rooted_iff := by simpa using h.rooted_iff

theorem not {t : Ast} (h : Siblings [t] p) : Siblings [.node .not [t]] p where
  wellFormed := by simpa using Ast.wellFormed_not.mpr ⟨t, rfl, h.wellFormed t (by simp)⟩
  orsFilled := by simpa using Ast.orsFilled_node.mpr ⟨by simp, h.orsFilled⟩
  shaped := by simpa using h.shaped
  rooted_iff := by simpa using h.rooted_iff

theorem normalize {t : Ast} (h : Siblings [t] p) : Siblings [t.normalize] p where
  wellFormed := by simpa using Ast.wellFormed_normalize (h.wellFormed t (by simp))
  orsFilled := by simpa using Ast.orsFilled_normalize (h.orsFilled t (by simp))
  shaped := by simpa [Ast.leaves_normalize] using h.shaped
  rooted_iff := by simpa [Ast.leaves_normalize] using h.rooted_iff

end Siblings

theorem rootedPath_of_systemKey {k : String} (h : k ∈ systemKeys) : RootedPath [k] :=
  ⟨k, [], rfl, .inl h⟩

theorem rootedPath_metadata : RootedPath ["metadata"] := ⟨_, [], rfl, .inr rfl⟩

theorem lowerDateKey_iff (k : DateKey) (f : Field DatePredicate) :
    ReturnsIff (lowerDateKey k f) (∀ p, f = .value p → p.NoNull) fun ts => Siblings ts True := by
  have hroot := rootedPath_of_systemKey k.name_mem_systemKeys
  have hone : ∀ v : Value, Siblings [.clause ⟨[k.name], .eq, v⟩] True := fun v =>
    Siblings.of_shaped (by simpa using shaped_scalar (by decide)) hroot
  match f with
  | .unset => exact ReturnsIff.ok_of (by simp) Siblings.nil
  | .null => exact ReturnsIff.ok_of (by simp) (hone _)
  | .value (.datetime d) => exact ReturnsIff.ok_of (by simp [DatePredicate.NoNull]) (hone _)
  | .value (.ops o) =>
      exact (lowerDateOps_iff o).congr (by simp [DatePredicate.NoNull])
        fun ts hts => Siblings.of_shaped hts hroot

theorem lowerStringKey_iff (k : StringKey) (f : Field StringPredicate) :
    ReturnsIff (lowerStringKey k f) (∀ p, f = .value p → p.NoNull) fun ts => Siblings ts True := by
  have hroot := rootedPath_of_systemKey k.name_mem_systemKeys
  have hone : ∀ v : Value, Siblings [.clause ⟨[k.name], .eq, v⟩] True := fun v =>
    Siblings.of_shaped (by simpa using shaped_scalar (by decide)) hroot
  match f with
  | .unset => exact ReturnsIff.ok_of (by simp) Siblings.nil
  | .null => exact ReturnsIff.ok_of (by simp) (hone _)
  | .value (.str s) => exact ReturnsIff.ok_of (by simp [StringPredicate.NoNull]) (hone _)
  | .value (.list ss) => exact ReturnsIff.ok_of (by simp [StringPredicate.NoNull]) (hone _)
  | .value (.ops o) =>
      exact (lowerStringOps_iff o).congr (by simp [StringPredicate.NoNull])
        fun ts hts => Siblings.of_shaped hts hroot

theorem siblings_lowerBlob (f : Field (List (String × Value))) : Siblings (lowerBlob f) True := by
  cases f with
  | unset => exact Siblings.nil
  | null => exact Siblings.nil
  | value fs =>
      exact Siblings.of_shaped (by simpa [lowerBlob] using shaped_scalar (by decide))
        rootedPath_metadata

theorem lowerFields_iff {dates : DateKey → Field DatePredicate}
    {strings : StringKey → Field StringPredicate} {metadata : Field (List (String × Value))}
    {folded : List (String × Value)}
    (hwalk : ∀ p ∈ folded, walkPredicate p.2 ("/" ++ p.1) = .ok ()) :
    ReturnsIff (lowerFields dates strings metadata folded)
      ((∀ k p, dates k = .value p → p.NoNull) ∧ (∀ k p, strings k = .value p → p.NoNull) ∧
        ∀ p ∈ folded, PredicateConvertible p.2)
      fun ts => Siblings ts (∀ p ∈ folded, RootedPath (dottedPath p.1)) := by
  have hdates : ReturnsIff (DateKey.all.mapM fun k => lowerDateKey k (dates k))
      (∀ k ∈ DateKey.all, ∀ p, dates k = .value p → p.NoNull)
      (List.Forall₂ (fun _ ts => Siblings ts True) DateKey.all) :=
    ReturnsIff.mapM fun k _ => lowerDateKey_iff k (dates k)
  have hstrings : ReturnsIff (StringKey.all.mapM fun k => lowerStringKey k (strings k))
      (∀ k ∈ StringKey.all, ∀ p, strings k = .value p → p.NoNull)
      (List.Forall₂ (fun _ ts => Siblings ts True) StringKey.all) :=
    ReturnsIff.mapM fun k _ => lowerStringKey_iff k (strings k)
  have hfolded : ReturnsIff (folded.mapM fun p => lowerMetadataPredicate (dottedPath p.1) p.2)
      (∀ p ∈ folded, PredicateConvertible p.2)
      (List.Forall₂ (fun p ts => Siblings ts (RootedPath (dottedPath p.1))) folded) :=
    ReturnsIff.mapM fun p hp => (lowerMetadataPredicate_iff (hwalk p hp)).congr Iff.rfl
      fun ts hts => Siblings.of_shapedLeafy hts.1 hts.2
  refine (hdates.bind fun ds hds => hstrings.bind fun ss hss => hfolded.bind fun fs hfs =>
    ReturnsIff.ok ?_).congr ?_ fun _ h => h
  · exact (((Siblings.flatten hds).append (Siblings.flatten hss)).append
      (siblings_lowerBlob metadata)).append (Siblings.flatten hfs) |>.congr (by simp)
  · simp [DateKey.mem_all, StringKey.mem_all]

/-- The lowered operands of a logical operator, when it is present: at least one. -/
def OptionSiblings (r : Prop) : Option (List Ast) → Prop
  | none => r
  | some ts => Siblings ts r ∧ ts ≠ []

theorem siblings_logicalNode {build : List Ast → Ast} {o : Option (List Ast)} {r : Prop}
    (ho : OptionSiblings r o) (h : ∀ ts, ts ≠ [] → Siblings ts r → Siblings [build ts] r) :
    Siblings (logicalNode build o) r := by
  cases o with
  | none => exact Siblings.nil.congr (iff_of_true trivial ho)
  | some ts => exact h ts ho.2 ho.1

mutual

theorem parseToAst_iff : ∀ f : RecallFilter, f.Valid →
    ReturnsIff (parseToAst f) f.Convertible fun t =>
      (∃ op cs, t = .node op cs) ∧ Siblings [t] f.Rooted
  | ⟨dates, strings, metadata, and_, or_, nor_, not_, folded⟩, h => by
      obtain ⟨-, -, hwalk, hand, hor, hnor, hnot⟩ := h
      rw [parseToAst, RecallFilter.Convertible]
      refine ((lowerFields_iff hwalk).bind fun ts hts =>
        (lowerBranches_iff and_ hand).bind fun as has =>
        (lowerBranches_iff or_ hor).bind fun os hos =>
        (lowerBranches_iff nor_ hnor).bind fun ns hns =>
        (lowerNegated_iff not_ hnot).bind fun xs hxs =>
        ReturnsIff.ok ⟨Ast.exists_normalize_node _ _,
          Siblings.normalize (Siblings.node (.inl rfl) ?_)⟩).congr ?_ fun _ h => h
      · tauto
      · have h1 := siblings_logicalNode has fun _ _ => Siblings.node (.inl rfl)
        have h2 := siblings_logicalNode hos fun _ hne => Siblings.node (.inr ⟨rfl, hne⟩)
        have h3 := siblings_logicalNode hns fun _ hne h => (Siblings.node (.inr ⟨rfl, hne⟩) h).not
        have h4 : Siblings (logicalNode (.node .not) xs) (NegatedRooted not_) := by
          cases xs with
          | none => exact Siblings.nil.congr (iff_of_true trivial hxs.1)
          | some ts =>
              obtain ⟨t, rfl⟩ := hxs.2 ts rfl
              exact Siblings.not hxs.1.1
        exact ((((hts.append h1).append h2).append h3).append h4).congr (by
          rw [RecallFilter.Rooted]
          tauto)

theorem lowerBranches_iff : ∀ b : Field (List RecallFilter), ValidBranches b →
    ReturnsIff (lowerBranches b) (BranchesConvertible b) (OptionSiblings (BranchesRooted b))
  | .unset, _ => ReturnsIff.ok trivial
  | .null, _ => ReturnsIff.ok trivial
  | .value fs, h => (parseAll_iff fs h.2).map fun _ hts => ⟨hts.1, hts.2 h.1⟩

theorem parseAll_iff : ∀ fs : List RecallFilter, ValidAll fs →
    ReturnsIff (parseAll fs) (AllConvertible fs) fun ts =>
      Siblings ts (AllRooted fs) ∧ (fs ≠ [] → ts ≠ [])
  | [], _ => ReturnsIff.ok ⟨Siblings.nil, by simp⟩
  | f :: fs, h => by
      rw [parseAll, AllConvertible]
      refine (parseToAst_iff f h.1).bind fun t ht => ?_
      refine ((parseAll_iff fs h.2).bind fun ts hts => ReturnsIff.ok ?_).congr
        (and_iff_left trivial) fun _ h => h
      exact ⟨ht.2.append hts.1, by simp⟩

theorem lowerNegated_iff : ∀ b : Field RecallFilter, ValidNegated b →
    ReturnsIff (lowerNegated b) (NegatedConvertible b) fun o =>
      OptionSiblings (NegatedRooted b) o ∧ ∀ ts, o = some ts → ∃ t, ts = [t]
  | .unset, _ => ReturnsIff.ok ⟨trivial, by simp⟩
  | .null, _ => ReturnsIff.ok ⟨trivial, by simp⟩
  | .value f, h => (parseToAst_iff f h).map fun t ht => ⟨⟨ht.2, by simp⟩, by simp⟩

end

/-- **When an accepted document lowers.**  Lowering returns a tree of the promised
shape exactly when no operator submodel holds an explicit null `$in`, `$nin` or
`$not`, every `$date` literal names a UTC instant of the calendar, and every key
of the folded carrier starts with a system key or `metadata`. -/
theorem parseToAst_lowers_iff {raw f : RecallFilter} (h : raw.validate = .ok f) :
    (∃ t, parseToAst f = .ok t ∧ Lowered t) ↔ f.Convertible ∧ f.Rooted := by
  have hspec := parseToAst_iff f (RecallFilter.valid_of_validate h)
  constructor
  · rintro ⟨t, ht, hlow⟩
    refine ⟨hspec.returns.mp ⟨t, ht⟩, ?_⟩
    exact (hspec.value t ht).2.rooted_iff.mp (by simpa using hlow.rooted)
  · rintro ⟨hconv, hroot⟩
    obtain ⟨t, ht⟩ := hspec.returns.mpr hconv
    obtain ⟨hnode, hs⟩ := hspec.value t ht
    refine ⟨t, ht, hnode, hs.wellFormed t (by simp), ?_, ?_⟩
    · simpa using hs.rooted_iff.mpr hroot
    · simpa using hs.shaped

/-- The document that filters on nothing. -/
def emptyFilter : RecallFilter where
  dates := fun _ => .unset
  strings := fun _ => .unset
  metadata := .unset
  and_ := .unset
  or_ := .unset
  nor_ := .unset
  not_ := .unset
  foldedPredicates := []

/-- `metadata.due` after a date, beside a title. -/
def dueFilter : RecallFilter :=
  { emptyFilter with
    strings := fun k => if k = .title then .value (.str "a") else .unset
    foldedPredicates :=
      [("metadata.due", .dict [(.str "$gt", .dict [(.str "$date", .str "2024-01-01")])])] }

theorem parseToAst_lowers_iff_dueFilter : ∃ f, dueFilter.validate = .ok f ∧
    ((∃ t, parseToAst f = .ok t ∧ Lowered t) ↔ f.Convertible ∧ f.Rooted) := by
  have h : dueFilter.validate = .ok _ := rfl
  exact ⟨_, h, parseToAst_lowers_iff h⟩

/-- An explicit null `$in` on a string key. -/
def nullInFilter : RecallFilter :=
  { emptyFilter with
    strings := fun k =>
      if k = .title then .value (.ops ⟨.unset, .unset, .null, .unset, .unset, .unset⟩) else .unset }

/-- The null `$in` is accepted, and lowering it raises `TypeError`. -/
theorem nullInFilter_not_lowered : ∃ f, nullInFilter.validate = .ok f ∧
    parseToAst f = .error .typeError ∧ ¬ ∃ t, parseToAst f = .ok t ∧ Lowered t := by
  refine ⟨_, rfl, rfl, ?_⟩
  rintro ⟨t, ht, -⟩
  cases ht

end Khora
