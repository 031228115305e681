import Khora.Filter.Ast

/-!
# The filter document and its validator

`RecallFilter` is the document after pydantic's structural pass: each field is
unset, an explicit null, or a value of its declared type.  What the repository's
own validators then do is `RecallFilter.validate`: dates are moved to UTC, the
logical arrays must be nonempty, and the free-form metadata predicates are walked
by a recursive grammar check.

* `walkOperator_ok_cases` — what an accepted metadata operator looks like.
* `RecallFilter.valid_of_validate` — an accepted document is valid at every depth.
-/

namespace Khora

open Calendar (DateTime fromisoformat)

/-- A field of a pydantic model: not provided, provided as null, or provided. -/
inductive Field (α : Type) where
  | unset
  | null
  | value (a : α)

namespace Field

variable {α β : Type}

def map (f : α → β) : Field α → Field β
  | unset => unset
  | null => null
  | value a => value (f a)

def mapM {ε : Type} (f : α → Except ε β) : Field α → Except ε (Field β)
  | unset => .ok unset
  | null => .ok null
  | value a => value <$> f a

/-- The provided value, if it is not null. -/
def toOption : Field α → Option α
  | value a => some a
  | _ => none

end Field

/-! ## The typed fields -/

structure StringOps where
  eq : Field String
  ne : Field String
  in_ : Field (List String)
  nin : Field (List String)
  exists_ : Field Bool
  not_ : Field StringOps

structure DateOps where
  eq : Field DateTime
  ne : Field DateTime
  gt : Field DateTime
  gte : Field DateTime
  lt : Field DateTime
  lte : Field DateTime
  in_ : Field (List DateTime)
  nin : Field (List DateTime)
  not_ : Field DateOps

/-- A string system key: a scalar, a list (exact-array equality) or operators. -/
inductive StringPredicate where
  | str (s : String)
  | list (items : List String)
  | ops (o : StringOps)

/-- A date system key: a scalar or operators. -/
inductive DatePredicate where
  | datetime (d : DateTime)
  | ops (o : DateOps)

inductive DateKey where
  | occurredAt
  | createdAt
  | sourceTimestamp
deriving DecidableEq, Repr

inductive StringKey where
  | sourceType
  | sourceName
  | sourceUrl
  | externalId
  | contentType
  | source
  | title
deriving DecidableEq, Repr

namespace DateKey

def name : DateKey → String
  | occurredAt => "occurred_at"
  | createdAt => "created_at"
  | sourceTimestamp => "source_timestamp"

def all : List DateKey := [occurredAt, createdAt, sourceTimestamp]

theorem mem_all (k : DateKey) : k ∈ all := by cases k <;> decide

theorem name_mem_systemKeys (k : DateKey) : k.name ∈ systemKeys := by cases k <;> decide

end DateKey

namespace StringKey

def name : StringKey → String
  | sourceType => "source_type"
  | sourceName => "source_name"
  | sourceUrl => "source_url"
  | externalId => "external_id"
  | contentType => "content_type"
  | source => "source"
  | title => "title"

def all : List StringKey :=
  [sourceType, sourceName, sourceUrl, externalId, contentType, source, title]

theorem mem_all (k : StringKey) : k ∈ all := by cases k <;> decide

theorem name_mem_systemKeys (k : StringKey) : k.name ∈ systemKeys := by cases k <;> decide

end StringKey

/-- The filter document. -/
structure RecallFilter where
  dates : DateKey → Field DatePredicate
  strings : StringKey → Field StringPredicate
  metadata : Field (List (String × Value))
  and_ : Field (List RecallFilter)
  or_ : Field (List RecallFilter)
  nor_ : Field (List RecallFilter)
  not_ : Field RecallFilter
  foldedPredicates : List (String × Value)

/-! ## Errors -/

/-- A structured validation failure. -/
structure FieldError where
  path : String
  code : String
  message : String
  allowed : Option (List String)
deriving DecidableEq, Repr

inductive FilterErr where
  /-- `RecallFilterValidationError`. -/
  | invalid (errors : List FieldError)
  /-- Any other exception. -/
  | raised (e : PyErr)
deriving DecidableEq

def raiseField {α : Type} (path code message : String) (allowed : Option (List String)) :
    Except FilterErr α :=
  .error (.invalid [⟨path, code, message, allowed⟩])

/-- `repr` of a string, for characters that print. -/
def reprString (s : String) : String :=
  let quote : Char := if s.toList.contains '\x27' && !s.toList.contains '"' then '"' else '\x27'
  let escape (c : Char) : List Char :=
    if c = quote ∨ c = '\\' then ['\\', c]
    else if c = '\n' then ['\\', 'n']
    else if c = '\r' then ['\\', 'r']
    else if c = '\t' then ['\\', 't']
    else [c]
  String.ofList (quote :: (s.toList.flatMap escape ++ [quote]))

/-! ## The metadata grammar -/

/-- The operators allowed inside a metadata operator expression. -/
def metadataFieldOps : List Op := [.eq, .ne, .gt, .gte, .lt, .lte, .in_, .nin, .exists_, .not]

/-- `sorted(op.value for op in _METADATA_FIELD_OPS)`. -/
def allowedOperators : List String :=
  ["$eq", "$exists", "$gt", "$gte", "$in", "$lt", "$lte", "$ne", "$nin", "$not"]

/-- `op_key in _METADATA_FIELD_OPS`, with the operator. -/
def metadataOp? (s : String) : Option Op := (Op.ofText? s).filter fun op => op ∈ metadataFieldOps

/-- `set(value.keys()) == {"$date"}`, with the operand. -/
def soleDate? : List (Key × Value) → Option Value
  | [(.str "$date", v)] => some v
  | _ => none

/-- `_parse_date_literal`. -/
def parseDateLiteral (value : Value) (path : String) : Except FilterErr Unit :=
  match value with
  | .str s =>
      if (fromisoformat s).isSome then .ok ()
      else raiseField path "date_literal_malformed"
        ("$date value " ++ reprString s ++ " is not valid ISO-8601") none
  | _ => raiseField path "date_literal_not_string" "$date value must be an ISO-8601 string" none

/-- `_check_literal_operand`. -/
def checkLiteralOperand (operand : Value) (path : String) : Except FilterErr Unit :=
  match operand with
  | .dict fs => match soleDate? fs with
      | some v => parseDateLiteral v (path ++ "/$date")
      | none => .ok ()
  | _ => .ok ()

/-- The check over the items of an `$in` / `$nin` list. -/
def checkLiteralOperands (items : List Value) (path : String) : Except FilterErr Unit :=
  items.forM fun item => checkLiteralOperand item path

def notExpressionError (path : String) : Except FilterErr Unit :=
  raiseField path "not_operand_not_expression" "$not value must be an operator expression" none

mutual

/-- `_walk_operator`. -/
def walkOperator (opKey : String) (operand : Value) (path : String) : Except FilterErr Unit :=
  match metadataOp? opKey, operand with
  | none, _ => raiseField path "unknown_operator" ("unsupported operator " ++ reprString opKey)
      (some allowedOperators)
  | some .in_, .list items => checkLiteralOperands items path
  | some .in_, _ =>
      raiseField path "operator_value_not_list" (opKey ++ " value must be an array") none
  | some .nin, .list items => checkLiteralOperands items path
  | some .nin, _ =>
      raiseField path "operator_value_not_list" (opKey ++ " value must be an array") none
  | some .exists_, .bool _ => .ok ()
  | some .exists_, _ =>
      raiseField path "operator_value_not_bool" (opKey ++ " value must be a boolean") none
  -- a field-position `$not` negates a nonempty, pure operator expression
  | some .not, .dict fs =>
      if fs.any (fun f => f.1.isDollar) && fs.all (fun f => f.1.isDollar) then walkOperators fs path
      else notExpressionError path
  | some .not, _ => notExpressionError path
  | some _, operand => checkLiteralOperand operand path

/-- The operators of an operator expression, in order. -/
def walkOperators (fields : List (Key × Value)) (path : String) : Except FilterErr Unit :=
  match fields with
  | [] => .ok ()
  | (k, v) :: fs => do
      walkOperator k.pyStr v (path ++ "/" ++ k.pyStr)
      walkOperators fs path

end

mutual

/-- `_reject_nested_operator`: a `$`-key inside nested dicts of an equality operand. -/
def rejectNestedOperator (value : Value) (path : String) : Except FilterErr Unit :=
  match value with
  | .dict fs => rejectNestedFields fs path
  | _ => .ok ()

def rejectNestedFields (fields : List (Key × Value)) (path : String) : Except FilterErr Unit :=
  match fields with
  | [] => .ok ()
  | (k, v) :: fs => do
      if k.isDollar then
        raiseField path "operator_nested_in_operand"
          ("operator ($) nested inside a whole-subdocument equality value; " ++
            "operators are not applied inside an equality match — use " ++
            "dot-notation for a nested-field predicate (e.g. \x7b\"metadata.a.b\": \x7b...\x7d\x7d)")
          none
      rejectNestedOperator v path
      rejectNestedFields fs path

end

/-- `_walk_predicate`. -/
def walkPredicate (predicate : Value) (path : String) : Except FilterErr Unit :=
  match predicate with
  | .dict [] => .ok ()
  | .dict fs =>
      if fs.any (fun f => f.1.isDollar) && fs.any (fun f => !f.1.isDollar) then
        raiseField path "mixed_operator_and_field"
          ("value object mixes operator ($) keys with non-operator keys; " ++
            "use dot-notation to address a nested field " ++
            "(e.g. \x7b\"metadata.a.b\": \x7b...\x7d\x7d)") none
      else if !fs.any (fun f => f.1.isDollar) then rejectNestedOperator (.dict fs) path
      else match soleDate? fs with
        | some v => parseDateLiteral v (path ++ "/$date")
        | none => walkOperators fs path
  | _ => .ok ()

/-! ## What the grammar accepts -/

theorem metadataOp?_eq_some {s : String} {op : Op} (h : metadataOp? s = some op) :
    Op.ofText? s = some op ∧ op ∈ metadataFieldOps := by
  unfold metadataOp? at h
  obtain ⟨ho, hp⟩ := Option.filter_eq_some_iff.mp h
  exact ⟨ho, by simpa using hp⟩

/-- What an accepted operator looks like. -/
inductive OperatorAccepted (opKey : String) (path : String) : Value → Prop where
  | not (fs : List (Key × Value)) (hop : Op.ofText? opKey = some .not) (hne : fs ≠ [])
      (hdollar : ∀ f ∈ fs, f.1.isDollar = true) (hwalk : walkOperators fs path = .ok ()) :
      OperatorAccepted opKey path (.dict fs)
  | list (op : Op) (items : List Value) (hop : Op.ofText? opKey = some op)
      (hlist : op = .in_ ∨ op = .nin) (hitems : checkLiteralOperands items path = .ok ()) :
      OperatorAccepted opKey path (.list items)
  | exists_ (b : Bool) (hop : Op.ofText? opKey = some .exists_) :
      OperatorAccepted opKey path (.bool b)
  | scalar (op : Op) (v : Value) (hop : Op.ofText? opKey = some op)
      (hscalar : op ∈ [Op.eq, .ne, .gt, .gte, .lt, .lte])
      (hcheck : checkLiteralOperand v path = .ok ()) : OperatorAccepted opKey path v

theorem walkOperator_ok_cases {opKey path : String} {operand : Value}
    (h : walkOperator opKey operand path = .ok ()) : OperatorAccepted opKey path operand := by
  rw [walkOperator.eq_def] at h
  split at h
  case h_1 => simp [raiseField] at h
  case h_2 hm => exact .list _ _ (metadataOp?_eq_some hm).1 (.inl rfl) h
  case h_3 => simp [raiseField] at h
  case h_4 hm => exact .list _ _ (metadataOp?_eq_some hm).1 (.inr rfl) h
  case h_5 => simp [raiseField] at h
  case h_6 hm => exact .exists_ _ (metadataOp?_eq_some hm).1
  case h_7 => simp [raiseField] at h
  case h_8 hm =>
      split at h
      · rename_i hd
        simp only [Bool.and_eq_true, List.any_eq_true, List.all_eq_true] at hd
        obtain ⟨⟨f, hf, -⟩, hall⟩ := hd
        exact .not _ (metadataOp?_eq_some hm).1 (List.ne_nil_of_mem hf) hall h
      · simp [notExpressionError, raiseField] at h
  case h_9 => simp [notExpressionError, raiseField] at h
  case h_10 =>
      rename_i op hin hnin hexists hnot hm _ _ _ _
      obtain ⟨ho, hmem⟩ := metadataOp?_eq_some hm
      refine .scalar op _ ho ?_ h
      simp only [metadataFieldOps, List.mem_cons, List.not_mem_nil, or_false] at hmem ⊢
      tauto

/-! ## UTC normalization -/

/-- `_normalize_utc`. -/
def normalizeUtc (d : DateTime) : Except FilterErr DateTime :=
  match d.toUtc with
  | some u => .ok u
  | none => .error (.raised .overflowError)

mutual

/-- The field validators of `DateOps`. -/
def DateOps.normalize : DateOps → Except FilterErr DateOps
  | ⟨eq, ne, gt, gte, lt, lte, in_, nin, not_⟩ => do
      let eq ← eq.mapM normalizeUtc
      let ne ← ne.mapM normalizeUtc
      let gt ← gt.mapM normalizeUtc
      let gte ← gte.mapM normalizeUtc
      let lt ← lt.mapM normalizeUtc
      let lte ← lte.mapM normalizeUtc
      let in_ ← in_.mapM fun ds => ds.mapM normalizeUtc
      let nin ← nin.mapM fun ds => ds.mapM normalizeUtc
      let not_ ← normalizeNegated not_
      .ok ⟨eq, ne, gt, gte, lt, lte, in_, nin, not_⟩

def normalizeNegated : Field DateOps → Except FilterErr (Field DateOps)
  | .unset => .ok .unset
  | .null => .ok .null
  | .value o => Field.value <$> o.normalize

end

/-- The field validator of the date keys; `DateOps` normalizes itself. -/
def DatePredicate.normalize : DatePredicate → Except FilterErr DatePredicate
  | .datetime d => .datetime <$> normalizeUtc d
  | .ops o => .ops <$> o.normalize

/-! ## Validation -/

/-- `$and` / `$or` / `$nor` must be nonempty when present. -/
def checkNonempty (name : String) : Field (List RecallFilter) → Except FilterErr Unit
  | .value [] => raiseField ("/" ++ name) "empty_logical_array"
      (name ++ " must be a nonempty array") none
  | _ => .ok ()

/-- The per-field walks over the bare blob. -/
def walkBlob : Field (List (String × Value)) → Except FilterErr Unit
  | .value fs => fs.forM fun f => walkPredicate f.2 ("/metadata/" ++ f.1)
  | _ => .ok ()

/-- `_validate_metadata_grammar`. -/
def validateMetadataGrammar (f : RecallFilter) : Except FilterErr Unit := do
  checkNonempty "$and" f.and_
  checkNonempty "$or" f.or_
  checkNonempty "$nor" f.nor_
  walkBlob f.metadata
  f.foldedPredicates.forM fun p => walkPredicate p.2 ("/" ++ p.1)

mutual

/-- The repository's validators on a structurally valid document. -/
def RecallFilter.validate : RecallFilter → Except FilterErr RecallFilter
  | ⟨dates, strings, metadata, and_, or_, nor_, not_, folded⟩ => do
      let occurredAt ← (dates .occurredAt).mapM DatePredicate.normalize
      let createdAt ← (dates .createdAt).mapM DatePredicate.normalize
      let sourceTimestamp ← (dates .sourceTimestamp).mapM DatePredicate.normalize
      let and_ ← validateBranches and_
      let or_ ← validateBranches or_
      let nor_ ← validateBranches nor_
      let not_ ← validateNegated not_
      let f : RecallFilter :=
        { dates := fun k => match k with
            | .occurredAt => occurredAt
            | .createdAt => createdAt
            | .sourceTimestamp => sourceTimestamp
          strings := strings, metadata := metadata, and_ := and_, or_ := or_, nor_ := nor_,
          not_ := not_, foldedPredicates := folded }
      validateMetadataGrammar f
      .ok f

def validateBranches : Field (List RecallFilter) → Except FilterErr (Field (List RecallFilter))
  | .unset => .ok .unset
  | .null => .ok .null
  | .value fs => Field.value <$> validateAll fs

def validateAll : List RecallFilter → Except FilterErr (List RecallFilter)
  | [] => .ok []
  | f :: fs => do
      let f ← f.validate
      let fs ← validateAll fs
      .ok (f :: fs)

def validateNegated : Field RecallFilter → Except FilterErr (Field RecallFilter)
  | .unset => .ok .unset
  | .null => .ok .null
  | .value f => Field.value <$> f.validate

end

mutual

/-- Every date of the submodel is in UTC. -/
def DateOps.Utc : DateOps → Prop
  | ⟨eq, ne, gt, gte, lt, lte, in_, nin, not_⟩ =>
      (∀ f ∈ [eq, ne, gt, gte, lt, lte], ∀ d, f = .value d → d.offset = some 0) ∧
      (∀ f ∈ [in_, nin], ∀ ds, f = .value ds → ∀ d ∈ ds, d.offset = some 0) ∧
      UtcNegated not_

def UtcNegated : Field DateOps → Prop
  | .unset => True
  | .null => True
  | .value o => o.Utc

end

def DatePredicate.Utc : DatePredicate → Prop
  | .datetime d => d.offset = some 0
  | .ops o => o.Utc

mutual

/-- What validation guarantees of a document. -/
def RecallFilter.Valid : RecallFilter → Prop
  | ⟨dates, _, metadata, and_, or_, nor_, not_, folded⟩ =>
      (∀ k p, dates k = .value p → p.Utc) ∧
      (∀ fs, metadata = .value fs → ∀ f ∈ fs, walkPredicate f.2 ("/metadata/" ++ f.1) = .ok ()) ∧
      (∀ p ∈ folded, walkPredicate p.2 ("/" ++ p.1) = .ok ()) ∧
      ValidBranches and_ ∧ ValidBranches or_ ∧ ValidBranches nor_ ∧ ValidNegated not_

def ValidBranches : Field (List RecallFilter) → Prop
  | .unset => True
  | .null => True
  | .value fs => fs ≠ [] ∧ ValidAll fs

def ValidAll : List RecallFilter → Prop
  | [] => True
  | f :: fs => f.Valid ∧ ValidAll fs

def ValidNegated : Field RecallFilter → Prop
  | .unset => True
  | .null => True
  | .value f => f.Valid

end

/-! ## What validation guarantees -/

section Guarantees

open Fallible

theorem normalizeUtc_offset {d u : DateTime} (h : normalizeUtc d = .ok u) : u.offset = some 0 := by
  unfold normalizeUtc at h
  cases hu : d.toUtc with
  | none => simp [hu] at h
  | some w =>
      simp only [hu, Except.ok.injEq] at h
      exact h ▸ (DateTime.toUtc_eq_some_iff.mp hu).2

theorem Field.mapM_eq_ok_value {α β ε : Type} {f : α → Except ε β} {x : Field α} {b : β}
    (h : x.mapM f = .ok (.value b)) : ∃ a, x = .value a ∧ f a = .ok b := by
  cases x with
  | unset => cases h
  | null => cases h
  | value a =>
      obtain ⟨b', hb, heq⟩ := map_eq_ok.mp h
      cases heq
      exact ⟨a, rfl, hb⟩

mutual

theorem DateOps.utc_of_normalize : ∀ {o o' : DateOps}, o.normalize = .ok o' → o'.Utc
  | ⟨eq, ne, gt, gte, lt, lte, in_, nin, not_⟩, o', h => by
      simp only [DateOps.normalize, bind_eq_ok, Except.ok.injEq] at h
      obtain ⟨eq', heq, ne', hne, gt', hgt, gte', hgte, lt', hlt, lte', hlte, in', hin, nin', hnin,
        not', hnot, rfl⟩ := h
      have hscalar : ∀ {x y : Field DateTime}, x.mapM normalizeUtc = .ok y →
          ∀ d, y = .value d → d.offset = some 0 := by
        rintro x y hxy d rfl
        obtain ⟨a, -, ha⟩ := Field.mapM_eq_ok_value hxy
        exact normalizeUtc_offset ha
      have hlist : ∀ {x y : Field (List DateTime)},
          x.mapM (fun ds => ds.mapM normalizeUtc) = .ok y →
          ∀ ds, y = .value ds → ∀ d ∈ ds, d.offset = some 0 := by
        rintro x y hxy ds rfl d hd
        obtain ⟨as, -, has⟩ := Field.mapM_eq_ok_value hxy
        obtain ⟨a, -, ha⟩ := exists_of_mem_mapM has hd
        exact normalizeUtc_offset ha
      refine ⟨?_, ?_, utcNegated_of_normalizeNegated hnot⟩
      · simp only [List.forall_mem_cons, List.not_mem_nil, false_imp_iff, implies_true, and_true]
        exact ⟨hscalar heq, hscalar hne, hscalar hgt, hscalar hgte, hscalar hlt, hscalar hlte⟩
      · simp only [List.forall_mem_cons, List.not_mem_nil, false_imp_iff, implies_true, and_true]
        exact ⟨hlist hin, hlist hnin⟩

theorem utcNegated_of_normalizeNegated : ∀ {o o' : Field DateOps},
    normalizeNegated o = .ok o' → UtcNegated o'
  | .unset, o', h => by
      cases h
      trivial
  | .null, o', h => by
      cases h
      trivial
  | .value o, o', h => by
      obtain ⟨p, hp, rfl⟩ := map_eq_ok.mp h
      exact DateOps.utc_of_normalize hp

end

theorem DatePredicate.utc_of_normalize {p p' : DatePredicate} (h : p.normalize = .ok p') :
    p'.Utc := by
  cases p with
  | datetime d =>
      obtain ⟨u, hu, rfl⟩ := map_eq_ok.mp h
      exact normalizeUtc_offset hu
  | ops o =>
      obtain ⟨o', ho, rfl⟩ := map_eq_ok.mp h
      exact DateOps.utc_of_normalize ho

theorem validateMetadataGrammar_eq_ok {f : RecallFilter} :
    validateMetadataGrammar f = .ok () ↔
      (∀ b ∈ [f.and_, f.or_, f.nor_], b.toOption ≠ some []) ∧
      (∀ fs, f.metadata = .value fs → ∀ p ∈ fs, walkPredicate p.2 ("/metadata/" ++ p.1) = .ok ()) ∧
      ∀ p ∈ f.foldedPredicates, walkPredicate p.2 ("/" ++ p.1) = .ok () := by
  have hne : ∀ (name : String) (b : Field (List RecallFilter)),
      checkNonempty name b = .ok () ↔ b.toOption ≠ some [] := by
    intro name b
    match b with
    | .unset => simp [checkNonempty, Field.toOption]
    | .null => simp [checkNonempty, Field.toOption]
    | .value [] => simp [checkNonempty, Field.toOption, raiseField]
    | .value (f :: fs) => simp [checkNonempty, Field.toOption]
  have hblob : walkBlob f.metadata = .ok () ↔ ∀ fs, f.metadata = .value fs → ∀ p ∈ fs,
      walkPredicate p.2 ("/metadata/" ++ p.1) = .ok () := by
    cases f.metadata with
    | unset => simp [walkBlob]
    | null => simp [walkBlob]
    | value fs =>
        rw [walkBlob, forM_eq_ok]
        simp
  simp only [validateMetadataGrammar, bind_eq_ok, hne, hblob, forM_eq_ok, List.forall_mem_cons,
    List.not_mem_nil, false_imp_iff, implies_true, and_true]
  constructor
  · rintro ⟨-, h1, -, h2, -, h3, -, h4, h5⟩
    exact ⟨⟨h1, h2, h3⟩, h4, h5⟩
  · rintro ⟨⟨h1, h2, h3⟩, h4, h5⟩
    exact ⟨(), h1, (), h2, (), h3, (), h4, h5⟩

mutual

/-- **An accepted document is valid.** -/
theorem RecallFilter.valid_of_validate : ∀ {raw f : RecallFilter}, raw.validate = .ok f → f.Valid
  | ⟨dates, strings, metadata, and_, or_, nor_, not_, folded⟩, f, h => by
      simp only [RecallFilter.validate, bind_eq_ok, Except.ok.injEq] at h
      obtain ⟨occ, hocc, cre, hcre, src, hsrc, and', hand, or', hor, nor', hnor, not', hnot, ⟨⟩,
        hgrammar, rfl⟩ := h
      obtain ⟨hne, hblob, hfold⟩ := validateMetadataGrammar_eq_ok.mp hgrammar
      simp only [List.forall_mem_cons] at hne
      have hdate : ∀ {x y : Field DatePredicate}, x.mapM DatePredicate.normalize = .ok y →
          ∀ p, y = .value p → p.Utc := by
        rintro x y hxy p rfl
        obtain ⟨a, -, ha⟩ := Field.mapM_eq_ok_value hxy
        exact DatePredicate.utc_of_normalize ha
      refine ⟨?_, hblob, hfold, validBranches_of_validateBranches hand hne.1,
        validBranches_of_validateBranches hor hne.2.1,
        validBranches_of_validateBranches hnor hne.2.2.1, validNegated_of_validateNegated hnot⟩
      intro k p hk
      cases k with
      | occurredAt => exact hdate hocc p hk
      | createdAt => exact hdate hcre p hk
      | sourceTimestamp => exact hdate hsrc p hk

theorem validBranches_of_validateBranches : ∀ {raws fs : Field (List RecallFilter)},
    validateBranches raws = .ok fs → fs.toOption ≠ some [] → ValidBranches fs
  | .unset, fs, h, _ => by
      cases h
      trivial
  | .null, fs, h, _ => by
      cases h
      trivial
  | .value raws, fs, h, hne => by
      obtain ⟨gs, hgs, rfl⟩ := map_eq_ok.mp h
      exact ⟨fun hnil => hne (congrArg some hnil), validAll_of_validateAll hgs⟩

theorem validAll_of_validateAll : ∀ {raws fs : List RecallFilter}, validateAll raws = .ok fs →
    ValidAll fs
  | [], fs, h => by
      cases h
      trivial
  | raw :: raws, fs, h => by
      simp only [validateAll, bind_eq_ok, Except.ok.injEq] at h
      obtain ⟨f, hf, gs, hgs, rfl⟩ := h
      exact ⟨RecallFilter.valid_of_validate hf, validAll_of_validateAll hgs⟩

theorem validNegated_of_validateNegated : ∀ {raw f : Field RecallFilter},
    validateNegated raw = .ok f → ValidNegated f
  | .unset, f, h => by
      cases h
      trivial
  | .null, f, h => by
      cases h
      trivial
  | .value raw, f, h => by
      obtain ⟨g, hg, rfl⟩ := map_eq_ok.mp h
      exact RecallFilter.valid_of_validate hg

end

end Guarantees

end Khora
