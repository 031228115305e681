import Khora.Filter.Lower
import Mathlib.Data.Multiset.Basic

/-!
# The normal form of a filter tree, and what a document says

`_normalize` flattens nested `$and`s and `$or`s and takes wrappers away, bottom-up.  The trees it
returns are those in which nothing of the kind is left.

* `Ast.normal_normalize`, `Ast.normalize_of_normal` — it reaches a normal form, and leaves one
  alone.
* `RecallFilter.reading` — a document read directly: its siblings together, `$nor` as a negated
  disjunction, a field's `$not` as the negation of its operators together.
* `normalization_canonical` — meaning, leaves and form of a normalized tree, and the AST of every
  document against its reading.
-/

namespace Khora

open Calendar (DateTime)
open Fallible

namespace Ast

/-! ## Normal trees -/

/-- The tree is a node of the operator. -/
def isNode (op : Op) : Ast → Bool
  | clause _ => false
  | node op' _ => op' = op

/-- No child has the operator, an only child is a leaf, and then the operator is `$and`. -/
def flat (op : Op) (cs : List Ast) : Bool :=
  cs.all (fun c => !isNode op c) &&
    match cs with
    | [node _ _] => false
    | [clause _] => op = .and
    | _ => true

mutual

/-- Every `$and` and `$or` of the tree is flat. -/
def normal : Ast → Bool
  | clause _ => true
  | node .not cs => normalAll cs
  | node op cs => flat op cs && normalAll cs

def normalAll : List Ast → Bool
  | [] => true
  | c :: cs => normal c && normalAll cs

end

theorem normalAll_iff {cs : List Ast} : normalAll cs = true ↔ ∀ c ∈ cs, c.normal = true := by
  induction cs with
  | nil => simp [normalAll]
  | cons c cs ih => simp [normalAll, ih]

theorem normal_not {cs : List Ast} : (node .not cs).normal = true ↔ ∀ c ∈ cs, c.normal = true := normalAll_iff

theorem normal_node {op : Op} (hop : op ≠ .not) {cs : List Ast} :
    (node op cs).normal = true ↔ flat op cs = true ∧ ∀ c ∈ cs, c.normal = true := by
  rw [normal, Bool.and_eq_true, normalAll_iff]
  exact hop

theorem normalize_node {op : Op} (hop : op ≠ .not) (cs : List Ast) :
    (node op cs).normalize = rebuild op ((cs.map normalize).flatMap (splice op)) := by
  rw [normalize, normalizeAll_eq]
  exact hop

/-- What is spliced into a node of the operator is none itself. -/
theorem not_isNode_of_splice {op : Op} (hop : op ≠ .not) {t s : Ast} (ht : t.normal = true)
    (hs : s ∈ splice op t) : s.normal = true ∧ isNode op s = false := by
  cases t with
  | clause c =>
      rw [List.mem_singleton.mp hs]
      exact ⟨rfl, rfl⟩
  | node op' cs =>
      by_cases heq : op' = op
      · subst heq
        rw [splice, if_pos rfl] at hs
        obtain ⟨hflat, hcs⟩ := (normal_node hop).mp ht
        have hall := (Bool.and_eq_true_iff.mp hflat).1
        have hnot := List.all_eq_true.mp hall s hs
        exact ⟨hcs s hs, by simpa using hnot⟩
      · rw [splice, if_neg heq] at hs
        rw [List.mem_singleton.mp hs]
        exact ⟨ht, decide_eq_false heq⟩

/-- A node is rebuilt to a normal tree. -/
theorem normal_rebuild {op : Op} (hop : op ≠ .not) {ts : List Ast}
    (h : ∀ t ∈ ts, t.normal = true ∧ isNode op t = false) : (rebuild op ts).normal = true := by
  have hall : ts.all (fun c => !isNode op c) = true := by
    rw [List.all_eq_true]
    intro t ht
    rw [(h t ht).2]
    rfl
  unfold rebuild
  split
  case h_1 op' cs => exact (h _ List.mem_cons_self).1
  case h_2 c => rfl
  case h_3 hnode hclause =>
    refine (normal_node hop).mpr ⟨?_, fun t ht => (h t ht).1⟩
    unfold flat
    rw [hall, Bool.true_and]
    split
    case h_1 op' cs => exact absurd rfl (hnode op' cs)
    case h_2 c => exact absurd rfl (hclause c)
    case h_3 => rfl

/-- **Normalization reaches a normal form.** -/
theorem normal_normalize (t : Ast) : t.normalize.normal = true := by
  induction t using Ast.induct with
  | clause c => rfl
  | node op cs ih =>
      by_cases hop : op = .not
      · subst hop
        rw [normalize, normalizeAll_eq, normal_not]
        intro c hc
        obtain ⟨d, hd, rfl⟩ := List.mem_map.mp hc
        exact ih d hd
      · rw [normalize_node hop]
        apply normal_rebuild hop
        intro s hs
        obtain ⟨c, hc, hs⟩ := List.mem_flatMap.mp hs
        obtain ⟨d, hd, rfl⟩ := List.mem_map.mp hc
        exact not_isNode_of_splice hop (ih d hd) hs

theorem splice_of_not_isNode {op : Op} {t : Ast} (h : isNode op t = false) : splice op t = [t] := by
  cases t with
  | clause c => rfl
  | node op' cs => exact if_neg (of_decide_eq_false h)

theorem rebuild_of_flat {op : Op} {cs : List Ast} (h : flat op cs = true) : rebuild op cs = node op cs := by
  have hshape := (Bool.and_eq_true_iff.mp h).2
  unfold rebuild
  split
  case h_1 op' cs' => cases hshape
  case h_2 c => rw [of_decide_eq_true hshape]
  case h_3 => rfl

/-- **Normalization leaves a normal tree alone.** -/
theorem normalize_of_normal (t : Ast) (h : t.normal = true) : t.normalize = t := by
  induction t using Ast.induct with
  | clause c => rfl
  | node op cs ih =>
      by_cases hop : op = .not
      · subst hop
        have hmap : cs.map normalize = cs :=
          (List.map_congr_left fun c hc => ih c hc (normal_not.mp h c hc)).trans (List.map_id cs)
        rw [normalize, normalizeAll_eq, hmap]
      · obtain ⟨hflat, hcs⟩ := (normal_node hop).mp h
        have hmap : cs.map normalize = cs :=
          (List.map_congr_left fun c hc => ih c hc (hcs c hc)).trans (List.map_id cs)
        have hsplice : cs.flatMap (splice op) = cs := by
          have hall := List.all_eq_true.mp (Bool.and_eq_true_iff.mp hflat).1
          rw [List.flatMap_congr fun c hc => splice_of_not_isNode (by simpa using hall c hc)]
          exact List.flatMap_singleton' cs
        rw [normalize_node hop, hmap, hsplice, rebuild_of_flat hflat]

theorem normalize_idem (t : Ast) : t.normalize.normalize = t.normalize :=
  normalize_of_normal _ (normal_normalize t)

end Ast

/-! ## Reading a document -/

section Reading

variable (v : FilterClause → Bool)

mutual

/-- One operator of a metadata expression, under a leaf valuation. -/
def readMetadataOperator (path : List String) (key : Key) (operand : Value) : Except PyErr Bool :=
  match opOfKey? key, operand with
  | none, _ => .error .valueError
  -- the operators together, negated
  | some .not, .dict fs => (fun b => !b) <$> readMetadataOperators path fs
  | some .not, _ => .error .attributeError
  | some .in_, x => (fun o => v ⟨path, .in_, o⟩) <$> lowerOperandList x
  | some .nin, x => (fun o => v ⟨path, .nin, o⟩) <$> lowerOperandList x
  | some .exists_, x => .ok (v ⟨path, .exists_, x⟩)
  | some op, x => (fun o => v ⟨path, op, o⟩) <$> lowerScalarOperand x

def readMetadataOperators (path : List String) (expr : List (Key × Value)) : Except PyErr Bool :=
  match expr with
  | [] => .ok true
  | (k, x) :: fs => do
      let b ← readMetadataOperator path k x
      let bs ← readMetadataOperators path fs
      .ok (b && bs)

end

/-- A metadata predicate: an exact value, or the operators together. -/
def readMetadataPredicate (path : List String) (predicate : Value) : Except PyErr Bool :=
  match predicate with
  | .list xs => .ok (v ⟨path, .eq, .tuple xs⟩)
  | .dict [] => .ok (v ⟨path, .eq, .dict []⟩)
  | .dict fs =>
      if !fs.any (fun f => f.1.isDollar) then .ok (v ⟨path, .eq, .dict fs⟩)
      else match soleDate? fs with
        | some x => (fun o => v ⟨path, .eq, o⟩) <$> makeDateLiteral x
        | none => readMetadataOperators v path fs
  | x => .ok (v ⟨path, .eq, x⟩)

/-- A scalar operator, true where it is not given. -/
def readScalarField (path : List String) (op : Op) : Field Value → Bool
  | .unset => true
  | .null => v ⟨path, op, .none⟩
  | .value x => v ⟨path, op, x⟩

def readListField (path : List String) (op : Op) : Field (List Value) → Except PyErr Bool
  | .unset => .ok true
  | .null => .error .typeError
  | .value xs => .ok (v ⟨path, op, .tuple xs⟩)

mutual

/-- The operators of a string key together. -/
def readStringOps (path : List String) : StringOps → Except PyErr Bool
  | ⟨eq, ne, in_, nin, exists_, not_⟩ => do
      let in_ ← readListField v path .in_ (in_.map fun ss => ss.map Value.str)
      let nin ← readListField v path .nin (nin.map fun ss => ss.map Value.str)
      let not_ ← readStringNegated path not_
      .ok (readScalarField v path .eq (eq.map Value.str) && readScalarField v path .ne (ne.map Value.str) &&
        in_ && nin && readScalarField v path .exists_ (exists_.map Value.bool) && not_)

def readStringNegated (path : List String) : Field StringOps → Except PyErr Bool
  | .unset => .ok true
  | .null => .error .attributeError
  | .value o => (fun b => !b) <$> readStringOps path o

end

mutual

/-- The operators of a date key together. -/
def readDateOps (path : List String) : DateOps → Except PyErr Bool
  | ⟨eq, ne, gt, gte, lt, lte, in_, nin, not_⟩ => do
      let in_ ← readListField v path .in_ (in_.map fun ds => ds.map Value.datetime)
      let nin ← readListField v path .nin (nin.map fun ds => ds.map Value.datetime)
      let not_ ← readDateNegated path not_
      .ok (readScalarField v path .eq (eq.map Value.datetime) && readScalarField v path .ne (ne.map Value.datetime) &&
        readScalarField v path .gt (gt.map Value.datetime) && readScalarField v path .gte (gte.map Value.datetime) &&
        readScalarField v path .lt (lt.map Value.datetime) && readScalarField v path .lte (lte.map Value.datetime) &&
        in_ && nin && not_)

def readDateNegated (path : List String) : Field DateOps → Except PyErr Bool
  | .unset => .ok true
  | .null => .error .attributeError
  | .value o => (fun b => !b) <$> readDateOps path o

end

def readDateKey (k : DateKey) : Field DatePredicate → Except PyErr Bool
  | .unset => .ok true
  | .null => .ok (v ⟨[k.name], .eq, .none⟩)
  | .value (.datetime d) => .ok (v ⟨[k.name], .eq, .datetime d⟩)
  | .value (.ops o) => readDateOps v [k.name] o

def readStringKey (k : StringKey) : Field StringPredicate → Except PyErr Bool
  | .unset => .ok true
  | .null => .ok (v ⟨[k.name], .eq, .none⟩)
  | .value (.str s) => .ok (v ⟨[k.name], .eq, .str s⟩)
  | .value (.list ss) => .ok (v ⟨[k.name], .eq, .tuple (ss.map Value.str)⟩)
  | .value (.ops o) => readStringOps v [k.name] o

def readBlob : Field (List (String × Value)) → Bool
  | .value fs => v ⟨["metadata"], .eq, .dict (fs.map fun f => (.str f.1, f.2))⟩
  | _ => true

/-- The predicates of one document that are not logical operators, together. -/
def readFields (dates : DateKey → Field DatePredicate) (strings : StringKey → Field StringPredicate)
    (metadata : Field (List (String × Value))) (folded : List (String × Value)) : Except PyErr Bool := do
  let dates ← DateKey.all.mapM fun k => readDateKey v k (dates k)
  let strings ← StringKey.all.mapM fun k => readStringKey v k (strings k)
  let folded ← folded.mapM fun p => readMetadataPredicate v (dottedPath p.1) p.2
  .ok (dates.all id && strings.all id && readBlob v metadata && folded.all id)

mutual

/-- **A document, read directly.** -/
def RecallFilter.reading : RecallFilter → Except PyErr Bool
  | ⟨dates, strings, metadata, and_, or_, nor_, not_, folded⟩ => do
      let fields ← readFields v dates strings metadata folded
      let and_ ← readBranches and_
      let or_ ← readBranches or_
      let nor_ ← readBranches nor_
      let not_ ← readNegated not_
      .ok (fields && and_.elim true (fun bs => bs.all id) && or_.elim true (fun bs => bs.any id) &&
        nor_.elim true (fun bs => !bs.any id) && not_.elim true fun b => !b)

def readBranches : Field (List RecallFilter) → Except PyErr (Option (List Bool))
  | .unset => .ok none
  | .null => .ok none
  | .value fs => some <$> readAll fs

def readAll : List RecallFilter → Except PyErr (List Bool)
  | [] => .ok []
  | f :: fs => do
      let b ← RecallFilter.reading f
      let bs ← readAll fs
      .ok (b :: bs)

def readNegated : Field RecallFilter → Except PyErr (Option Bool)
  | .unset => .ok none
  | .null => .ok none
  | .value f => some <$> RecallFilter.reading f

end

/-! ## The tree of a document -/

/-- The trees together have the truth value, and are well formed. -/
def Says (ts : List Ast) (b : Bool) : Prop := (∀ t ∈ ts, t.wellFormed = true) ∧ ts.all (Ast.eval v) = b

variable {v}

theorem says_nil : Says v [] true := ⟨fun _ h => absurd h List.not_mem_nil, rfl⟩

theorem says_clause (c : FilterClause) : Says v [.clause c] (v c) := by
  refine ⟨fun t ht => ?_, by simp⟩
  rw [List.mem_singleton.mp ht]
  rfl

theorem Says.append {ts us : List Ast} {b b' : Bool} (h : Says v ts b) (h' : Says v us b') :
    Says v (ts ++ us) (b && b') := by
  refine ⟨List.forall_mem_append.mpr ⟨h.1, h'.1⟩, ?_⟩
  rw [List.all_append, h.2, h'.2]

theorem Says.negate {ts : List Ast} {b : Bool} (h : Says v ts b) : Says v [negate ts] !b := by
  have hchild : ∀ c : Ast, c.wellFormed = true → Ast.eval v c = b → Says v [.node .not [c]] !b := by
    intro c hc hb
    refine ⟨fun t ht => ?_, by simp [hb]⟩
    rw [List.mem_singleton.mp ht]
    exact Ast.wellFormed_not.mpr ⟨c, rfl, hc⟩
  have hand : Says v [.node .not [.node .and ts]] !b :=
    hchild _ (Ast.wellFormed_and.mpr h.1) ((Ast.eval_and v ts).trans h.2)
  unfold Khora.negate
  split
  case h_1 x => exact hchild x (h.1 x List.mem_cons_self) (by simpa using h.2)
  case h_2 => exact hand

theorem says_flatten {tss : List (List Ast)} {bs : List Bool} (h : List.Forall₂ (Says v) tss bs) :
    Says v tss.flatten (bs.all id) := by
  induction h with
  | nil => exact says_nil
  | cons h _ ih => exact h.append ih

mutual

theorem alike_readMetadataOperator (path : List String) (key : Key) (operand : Value) :
    Alike (fun t b => Says v [t] b) (lowerMetadataOperator path key operand)
      (readMetadataOperator v path key operand) := by
  have hleaf : ∀ op (x : Except PyErr Value), Alike (fun t b => Says v [t] b)
      ((fun o => Ast.clause ⟨path, op, o⟩) <$> x) ((fun o => v ⟨path, op, o⟩) <$> x) := by
    intro op x
    refine (Alike.refl x).map fun o o' ho => ?_
    rw [ho]
    exact says_clause _
  rw [lowerMetadataOperator.eq_def, readMetadataOperator.eq_def]
  cases opOfKey? key with
  | none => exact .error _
  | some op =>
      cases op
      case not =>
        match operand with
        | .dict fs => exact (alike_readMetadataOperators path fs).map fun ts b h => h.negate
        | .none | .bool _ | .int _ | .float _ | .str _ | .list _ | .tuple _ | .datetime _ | .dateLiteral _ =>
            exact .error _
      case exists_ => exact .ok (says_clause _)
      all_goals exact hleaf _ _

theorem alike_readMetadataOperators (path : List String) (expr : List (Key × Value)) :
    Alike (Says v) (lowerMetadataOperatorExpr path expr) (readMetadataOperators v path expr) := by
  match expr with
  | [] => exact .ok says_nil
  | (k, x) :: fs =>
      unfold lowerMetadataOperatorExpr readMetadataOperators
      refine (alike_readMetadataOperator path k x).bind fun t b ht => ?_
      exact (alike_readMetadataOperators path fs).bind fun ts bs hts => .ok (ht.append hts)

end

theorem alike_readMetadataPredicate (path : List String) (predicate : Value) :
    Alike (Says v) (lowerMetadataPredicate path predicate) (readMetadataPredicate v path predicate) := by
  match predicate with
  | .list xs => exact .ok (says_clause _)
  | .dict [] => exact .ok (says_clause _)
  | .dict (f :: fs) =>
      unfold lowerMetadataPredicate readMetadataPredicate
      dsimp only
      split
      case isTrue => exact .ok (says_clause _)
      case isFalse =>
        cases soleDate? (f :: fs) with
        | none => exact alike_readMetadataOperators path (f :: fs)
        | some x =>
            refine (Alike.refl (makeDateLiteral x)).map fun o o' ho => ?_
            rw [ho]
            exact says_clause _
  | .none | .bool _ | .int _ | .float _ | .str _ | .tuple _ | .datetime _ | .dateLiteral _ =>
      exact .ok (says_clause _)

theorem says_scalarField (path : List String) (op : Op) (f : Field Value) :
    Says v (lowerScalarField path op f) (readScalarField v path op f) := by
  cases f with
  | unset => exact says_nil
  | null => exact says_clause _
  | value x => exact says_clause _

theorem alike_readListField (path : List String) (op : Op) (f : Field (List Value)) :
    Alike (Says v) (lowerListField path op f) (readListField v path op f) := by
  cases f with
  | unset => exact .ok says_nil
  | null => exact .error _
  | value xs => exact .ok (says_clause _)

mutual

theorem alike_readStringOps (path : List String) :
    ∀ o : StringOps, Alike (Says v) (lowerStringOps path o) (readStringOps v path o)
  | ⟨eq, ne, in_, nin, exists_, not_⟩ => by
      unfold lowerStringOps readStringOps
      refine (alike_readListField path .in_ _).bind fun _ _ hin => ?_
      refine (alike_readListField path .nin _).bind fun _ _ hnin => ?_
      refine (alike_readStringNegated path not_).bind fun _ _ hnot => .ok ?_
      have heq := says_scalarField (v := v) path .eq (eq.map Value.str)
      have hne := says_scalarField (v := v) path .ne (ne.map Value.str)
      have hexists := says_scalarField (v := v) path .exists_ (exists_.map Value.bool)
      exact ((((heq.append hne).append hin).append hnin).append hexists).append hnot

theorem alike_readStringNegated (path : List String) :
    ∀ f : Field StringOps, Alike (Says v) (lowerStringNegated path f) (readStringNegated v path f)
  | .unset => .ok says_nil
  | .null => .error _
  | .value o => by
      unfold lowerStringNegated readStringNegated
      exact (alike_readStringOps path o).map fun _ _ h => h.negate

end

mutual

theorem alike_readDateOps (path : List String) :
    ∀ o : DateOps, Alike (Says v) (lowerDateOps path o) (readDateOps v path o)
  | ⟨eq, ne, gt, gte, lt, lte, in_, nin, not_⟩ => by
      unfold lowerDateOps readDateOps
      refine (alike_readListField path .in_ _).bind fun _ _ hin => ?_
      refine (alike_readListField path .nin _).bind fun _ _ hnin => ?_
      refine (alike_readDateNegated path not_).bind fun _ _ hnot => .ok ?_
      have hfield : ∀ op (f : Field DateTime), Says v (lowerScalarField path op (f.map Value.datetime))
          (readScalarField v path op (f.map Value.datetime)) := fun op f => says_scalarField path op _
      have hscalars := (((((hfield .eq eq).append (hfield .ne ne)).append (hfield .gt gt)).append
        (hfield .gte gte)).append (hfield .lt lt)).append (hfield .lte lte)
      exact ((hscalars.append hin).append hnin).append hnot

theorem alike_readDateNegated (path : List String) :
    ∀ f : Field DateOps, Alike (Says v) (lowerDateNegated path f) (readDateNegated v path f)
  | .unset => .ok says_nil
  | .null => .error _
  | .value o => by
      unfold lowerDateNegated readDateNegated
      exact (alike_readDateOps path o).map fun _ _ h => h.negate

end

theorem alike_readDateKey (k : DateKey) (f : Field DatePredicate) :
    Alike (Says v) (lowerDateKey k f) (readDateKey v k f) := by
  cases f with
  | unset => exact .ok says_nil
  | null => exact .ok (says_clause _)
  | value p =>
      cases p with
      | datetime d => exact .ok (says_clause _)
      | ops o => exact alike_readDateOps [k.name] o

theorem alike_readStringKey (k : StringKey) (f : Field StringPredicate) :
    Alike (Says v) (lowerStringKey k f) (readStringKey v k f) := by
  cases f with
  | unset => exact .ok says_nil
  | null => exact .ok (says_clause _)
  | value p =>
      cases p with
      | str s => exact .ok (says_clause _)
      | list ss => exact .ok (says_clause _)
      | ops o => exact alike_readStringOps [k.name] o

theorem says_blob (f : Field (List (String × Value))) : Says v (lowerBlob f) (readBlob v f) := by
  cases f with
  | unset => exact says_nil
  | null => exact says_nil
  | value fs => exact says_clause _

theorem alike_readFields (dates : DateKey → Field DatePredicate) (strings : StringKey → Field StringPredicate)
    (metadata : Field (List (String × Value))) (folded : List (String × Value)) :
    Alike (Says v) (lowerFields dates strings metadata folded) (readFields v dates strings metadata folded) := by
  unfold lowerFields readFields
  refine (Alike.mapM fun k _ => alike_readDateKey k (dates k)).bind fun _ _ hdates => ?_
  refine (Alike.mapM fun k _ => alike_readStringKey k (strings k)).bind fun _ _ hstrings => ?_
  refine (Alike.mapM fun p _ => alike_readMetadataPredicate (dottedPath p.1) p.2).bind fun _ _ hfolded => .ok ?_
  exact (((says_flatten hdates).append (says_flatten hstrings)).append (says_blob metadata)).append
    (says_flatten hfolded)

/-- The operands of a logical array with their truth values. -/
def Operands (v : FilterClause → Bool) : Option (List Ast) → Option (List Bool) → Prop
  | none, none => True
  | some ts, some bs => List.Forall₂ (fun t b => Says v [t] b) ts bs
  | _, _ => False

theorem operands_all {ts : List Ast} {bs : List Bool} (h : List.Forall₂ (fun t b => Says v [t] b) ts bs) :
    (∀ t ∈ ts, t.wellFormed = true) ∧ ts.all (Ast.eval v) = bs.all id ∧ ts.any (Ast.eval v) = bs.any id := by
  induction h with
  | nil => exact ⟨fun _ h => absurd h List.not_mem_nil, rfl, rfl⟩
  | cons h _ ih =>
      have hb := h.2
      rw [List.all_cons, List.all_nil, Bool.and_true] at hb
      refine ⟨List.forall_mem_cons.mpr ⟨h.1 _ List.mem_cons_self, ih.1⟩, ?_, ?_⟩
      · rw [List.all_cons, List.all_cons, hb, ih.2.1]
        rfl
      · rw [List.any_cons, List.any_cons, hb, ih.2.2]
        rfl

/-- A logical operator of the document: the node it makes, and what it says. -/
theorem says_logicalNode {build : List Ast → Ast} {value : List Bool → Bool} {o : Option (List Ast)}
    {o' : Option (List Bool)} (h : Operands v o o')
    (hbuild : ∀ ts bs, List.Forall₂ (fun t b => Says v [t] b) ts bs → Says v [build ts] (value bs)) :
    Says v (logicalNode build o) (o'.elim true value) := by
  match o, o' with
  | none, none => exact says_nil
  | some ts, some bs => exact hbuild ts bs h
  | none, some _ => exact h.elim
  | some _, none => exact h.elim

theorem says_singleton {t : Ast} {b : Bool} (hwf : t.wellFormed = true) (hb : Ast.eval v t = b) : Says v [t] b := by
  refine ⟨fun s hs => ?_, ?_⟩
  · rw [List.mem_singleton.mp hs]
    exact hwf
  · rw [List.all_cons, List.all_nil, Bool.and_true, hb]

theorem says_and {ts : List Ast} {bs : List Bool} (h : List.Forall₂ (fun t b => Says v [t] b) ts bs) :
    Says v [.node .and ts] (bs.all id) := by
  obtain ⟨hwf, hall, -⟩ := operands_all h
  exact says_singleton (Ast.wellFormed_and.mpr hwf) ((Ast.eval_and v ts).trans hall)

theorem says_or {ts : List Ast} {bs : List Bool} (h : List.Forall₂ (fun t b => Says v [t] b) ts bs) :
    Says v [.node .or ts] (bs.any id) := by
  obtain ⟨hwf, -, hany⟩ := operands_all h
  exact says_singleton (Ast.wellFormed_or.mpr hwf) ((Ast.eval_or v ts).trans hany)

theorem Says.not {t : Ast} {b : Bool} (h : Says v [t] b) : Says v [.node .not [t]] !b := h.negate

/-- The siblings of a document under their `$and`, normalized. -/
theorem Says.normalize {ts : List Ast} {b : Bool} (h : Says v ts b) :
    Says v [(Ast.node .and ts).normalize] b := by
  have hwf := Ast.wellFormed_and.mpr h.1
  apply says_singleton (Ast.wellFormed_normalize hwf)
  rw [Ast.eval_normalize v _ hwf, Ast.eval_and, h.2]

mutual

theorem alike_reading : ∀ f : RecallFilter, Alike (fun t b => Says v [t] b) (parseToAst f) (f.reading v)
  | ⟨dates, strings, metadata, and_, or_, nor_, not_, folded⟩ => by
      unfold parseToAst RecallFilter.reading
      refine (alike_readFields dates strings metadata folded).bind fun _ _ hfields => ?_
      refine (alike_readBranches and_).bind fun _ _ hand => ?_
      refine (alike_readBranches or_).bind fun _ _ hor => ?_
      refine (alike_readBranches nor_).bind fun _ _ hnor => ?_
      refine (alike_readNegated not_).bind fun _ _ hnot => .ok (Says.normalize ?_)
      have hdocAnd := says_logicalNode hand fun _ _ => says_and
      have hdocOr := says_logicalNode hor fun _ _ => says_or
      have hdocNor := says_logicalNode hnor fun _ _ h => (says_or h).not
      exact (((hfields.append hdocAnd).append hdocOr).append hdocNor).append hnot

theorem alike_readBranches : ∀ f : Field (List RecallFilter), Alike (Operands v) (lowerBranches f) (readBranches v f)
  | .unset => .ok trivial
  | .null => .ok trivial
  | .value fs => by
      unfold lowerBranches readBranches
      exact (alike_readAll fs).map fun _ _ h => h

theorem alike_readAll : ∀ fs : List RecallFilter,
    Alike (List.Forall₂ fun t b => Says v [t] b) (parseAll fs) (readAll v fs)
  | [] => .ok .nil
  | f :: fs => by
      unfold parseAll readAll
      refine (alike_reading f).bind fun _ _ h => ?_
      exact (alike_readAll fs).bind fun _ _ hs => .ok (.cons h hs)

theorem alike_readNegated : ∀ f : Field RecallFilter,
    Alike (fun o o' => Says v (logicalNode (.node .not) o) (o'.elim true fun b => !b))
      (lowerNegated f) (readNegated v f)
  | .unset => .ok says_nil
  | .null => .ok says_nil
  | .value f => by
      unfold lowerNegated readNegated
      exact (alike_reading f).map fun _ _ h => h.not

end

/-- **The tree of a document means what the document says**, and fails to be made alike. -/
theorem eval_parseToAst (f : RecallFilter) : Ast.eval v <$> parseToAst f = f.reading v := by
  apply Alike.map_eq
  refine (alike_reading f).mono fun t b h => ?_
  simpa using h.2

end Reading

/-- **Normalization keeps the meaning and the leaves and reaches a normal form**, and the tree of
every document evaluates as the document reads. -/
theorem normalization_canonical :
    (∀ t : Ast, t.wellFormed = true → (∀ v, Ast.eval v t.normalize = Ast.eval v t) ∧
      (t.normalize.leaves : Multiset FilterClause) = t.leaves ∧
      t.normalize.normalize = t.normalize ∧ t.normalize.normal = true) ∧
    ∀ (f : RecallFilter) (v : FilterClause → Bool), Ast.eval v <$> parseToAst f = f.reading v := by
  refine ⟨fun t ht => ⟨fun v => Ast.eval_normalize v t ht, ?_, Ast.normalize_idem t, Ast.normal_normalize t⟩, ?_⟩
  · rw [Ast.leaves_normalize]
  · exact fun f v => eval_parseToAst f

/-- `{"$or": [{"title": "a"}]}`, once the wrappers are there: an `$and` over an `$or` over a lone leaf. -/
theorem loneOr_canonical :
    (∀ v, Ast.eval v (Ast.node .and [.node .or [.clause ⟨["title"], .eq, .str "a"⟩]]).normalize =
      Ast.eval v (.node .and [.node .or [.clause ⟨["title"], .eq, .str "a"⟩]])) ∧
    (Ast.node .and [.node .or [.clause ⟨["title"], .eq, .str "a"⟩]]).normalize.normal = true := by
  have h := normalization_canonical.1 (.node .and [.node .or [.clause ⟨["title"], .eq, .str "a"⟩]]) rfl
  exact ⟨h.1, h.2.2.2⟩

end Khora
