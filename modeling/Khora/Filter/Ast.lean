import Khora.Filter.Value

/-!
# The canonical filter AST

The desugared form every compiler takes: leaf clauses `path op operand` under
logical nodes.  The lowering only builds nodes whose operator is `$and`, `$or` or
`$not`, the last with one child (`Ast.wellFormed`).

* `Ast.eval_normalize` — `_normalize` keeps the truth value under every leaf
  valuation.
* `Ast.leaves_normalize` — and the leaves, in order.
-/

namespace Khora

/-- The operator vocabulary of the wire format. -/
inductive Op where
  | eq
  | ne
  | gt
  | gte
  | lt
  | lte
  | in_
  | nin
  | exists_
  | and
  | or
  | nor
  | not
  | date
deriving DecidableEq, Repr

namespace Op

/-- The wire literal. -/
def text : Op → String
  | eq => "$eq"
  | ne => "$ne"
  | gt => "$gt"
  | gte => "$gte"
  | lt => "$lt"
  | lte => "$lte"
  | in_ => "$in"
  | nin => "$nin"
  | exists_ => "$exists"
  | and => "$and"
  | or => "$or"
  | nor => "$nor"
  | not => "$not"
  | date => "$date"

def all : List Op := [eq, ne, gt, gte, lt, lte, in_, nin, exists_, and, or, nor, not, date]

/-- `Op(text)`, `none` for its `ValueError`. -/
def ofText? (s : String) : Option Op := all.find? fun op => op.text == s

theorem ofText?_text (op : Op) : ofText? op.text = some op := by
  cases op <;> decide

end Op

/-- The ten filterable system keys. -/
def systemKeys : List String :=
  ["occurred_at", "created_at", "source_timestamp", "source_type", "source_name", "source_url",
    "external_id", "content_type", "source", "title"]

/-- A leaf predicate. -/
structure FilterClause where
  path : List String
  op : Op
  operand : Value

namespace FilterClause

/-- `_path_str`. -/
def pathStr (c : FilterClause) : String := ".".intercalate c.path

/-- `len(path) == 1 and path[0] in SYSTEM_KEYS`, with the key. -/
def systemKey? (c : FilterClause) : Option String :=
  match c.path with
  | [k] => if k ∈ systemKeys then some k else none
  | _ => none

/-- The segments below `metadata`, when the path is a metadata path. -/
def metadataPath? (c : FilterClause) : Option (List String) :=
  match c.path with
  | "metadata" :: segs => some segs
  | _ => none

end FilterClause

/-- A filter tree: `FilterClause` leaves under `FilterNode`s. -/
inductive Ast where
  | clause (c : FilterClause)
  | node (op : Op) (children : List Ast)

namespace Ast

/-- Structural induction over a tree and its children. -/
theorem induct {P : Ast → Prop} (clause : ∀ c, P (.clause c))
    (node : ∀ op cs, (∀ c ∈ cs, P c) → P (.node op cs)) (t : Ast) : P t := by
  refine @Ast.rec P (fun cs => ∀ c ∈ cs, P c) clause node ?_ ?_ t
  · simp
  · intro c cs hc hcs x hx
    rcases List.mem_cons.mp hx with rfl | hx
    · exact hc
    · exact hcs x hx

/-! ## Shape -/

mutual

/-- Every node is an `$and`, an `$or`, or a `$not` over one child. -/
def wellFormed : Ast → Bool
  | clause _ => true
  | node op cs => (match op with
      | .and => true
      | .or => true
      | .not => cs.length == 1
      | _ => false) && wellFormedAll cs

def wellFormedAll : List Ast → Bool
  | [] => true
  | c :: cs => wellFormed c && wellFormedAll cs

end

theorem wellFormedAll_iff {cs : List Ast} :
    wellFormedAll cs = true ↔ ∀ c ∈ cs, c.wellFormed = true := by
  induction cs with
  | nil => simp [wellFormedAll]
  | cons c cs ih => simp [wellFormedAll, ih]

theorem wellFormed_and {cs : List Ast} :
    (node .and cs).wellFormed = true ↔ ∀ c ∈ cs, c.wellFormed = true := by
  simp [wellFormed, wellFormedAll_iff]

theorem wellFormed_or {cs : List Ast} :
    (node .or cs).wellFormed = true ↔ ∀ c ∈ cs, c.wellFormed = true := by
  simp [wellFormed, wellFormedAll_iff]

theorem wellFormed_not {cs : List Ast} :
    (node .not cs).wellFormed = true ↔ ∃ c, cs = [c] ∧ c.wellFormed = true := by
  simp only [wellFormed, Bool.and_eq_true, beq_iff_eq, List.length_eq_one_iff]
  constructor
  · rintro ⟨⟨c, rfl⟩, h⟩
    exact ⟨c, rfl, wellFormedAll_iff.mp h c (by simp)⟩
  · rintro ⟨c, rfl, h⟩
    exact ⟨⟨c, rfl⟩, wellFormedAll_iff.mpr (by simpa using h)⟩

/-- Induction over well-formed trees, one case for each kind of node. -/
@[elab_as_elim]
theorem induct_wellFormed {P : Ast → Prop} (clause : ∀ c, P (.clause c))
    (and : ∀ cs, (∀ c ∈ cs, c.wellFormed = true) → (∀ c ∈ cs, P c) → P (.node .and cs))
    (or : ∀ cs, (∀ c ∈ cs, c.wellFormed = true) → (∀ c ∈ cs, P c) → P (.node .or cs))
    (not : ∀ c, c.wellFormed = true → P c → P (.node .not [c])) (t : Ast)
    (h : t.wellFormed = true) : P t := by
  induction t using Ast.induct with
  | clause c => exact clause c
  | node op cs ih =>
      cases op
      case and =>
          have hcs := wellFormed_and.mp h
          exact and cs hcs fun c hc => ih c hc (hcs c hc)
      case or =>
          have hcs := wellFormed_or.mp h
          exact or cs hcs fun c hc => ih c hc (hcs c hc)
      case not =>
          obtain ⟨c, rfl, hc⟩ := wellFormed_not.mp h
          exact not c hc (ih c (by simp) hc)
      all_goals simp [wellFormed] at h

mutual

/-- No `$or` is without branches. -/
def orsFilled : Ast → Bool
  | clause _ => true
  | node op cs => (op ≠ .or || !cs.isEmpty) && orsFilledAll cs

def orsFilledAll : List Ast → Bool
  | [] => true
  | c :: cs => orsFilled c && orsFilledAll cs

end

theorem orsFilled_node {op : Op} {cs : List Ast} :
    (node op cs).orsFilled = true ↔ (op = .or → cs ≠ []) ∧ ∀ c ∈ cs, c.orsFilled = true := by
  have hall : orsFilledAll cs = true ↔ ∀ c ∈ cs, c.orsFilled = true := by
    induction cs with
    | nil => simp [orsFilledAll]
    | cons c cs ih => simp [orsFilledAll, ih]
  rw [orsFilled, Bool.and_eq_true, hall]
  refine and_congr_left fun _ => ?_
  by_cases hop : op = .or
  · simp [hop]
  · simp [hop]

/-! ## Meaning -/

section Eval

variable (v : FilterClause → Bool)

mutual

/-- The truth value of a tree under a leaf valuation.  A node that is neither
`$and` nor `$or` negates its first child, as every compiler does. -/
def eval : Ast → Bool
  | clause c => v c
  | node .and cs => evalAll cs
  | node .or cs => evalAny cs
  | node _ [] => true
  | node _ (c :: _) => !eval c

def evalAll : List Ast → Bool
  | [] => true
  | c :: cs => eval c && evalAll cs

def evalAny : List Ast → Bool
  | [] => false
  | c :: cs => eval c || evalAny cs

end

theorem evalAll_eq (cs : List Ast) : evalAll v cs = cs.all (eval v) := by
  induction cs with
  | nil => rfl
  | cons c cs ih => simp [evalAll, ih]

theorem evalAny_eq (cs : List Ast) : evalAny v cs = cs.any (eval v) := by
  induction cs with
  | nil => rfl
  | cons c cs ih => simp [evalAny, ih]

@[simp] theorem eval_clause (c : FilterClause) : eval v (clause c) = v c := rfl

@[simp] theorem eval_and (cs : List Ast) : eval v (node .and cs) = cs.all (eval v) :=
  evalAll_eq v cs

@[simp] theorem eval_or (cs : List Ast) : eval v (node .or cs) = cs.any (eval v) :=
  evalAny_eq v cs

@[simp] theorem eval_not (c : Ast) : eval v (node .not [c]) = !eval v c := rfl

end Eval

/-! ## Leaves -/

mutual

/-- The leaves, left to right. -/
def leaves : Ast → List FilterClause
  | clause c => [c]
  | node _ cs => leavesAll cs

def leavesAll : List Ast → List FilterClause
  | [] => []
  | c :: cs => leaves c ++ leavesAll cs

end

theorem leavesAll_eq (cs : List Ast) : leavesAll cs = cs.flatMap leaves := by
  induction cs with
  | nil => rfl
  | cons c cs ih => simp [leavesAll, ih]

@[simp] theorem leaves_clause (c : FilterClause) : leaves (clause c) = [c] := rfl

@[simp] theorem leaves_node (op : Op) (cs : List Ast) :
    leaves (node op cs) = cs.flatMap leaves := leavesAll_eq cs

/-- `_leaf_paths`: the dotted key of every leaf occurrence. -/
def leafPaths (t : Ast) : List String := t.leaves.map FilterClause.pathStr

/-! ## Normalization -/

/-- One flattened child: the children of a node of the same operator, else itself. -/
def splice (op : Op) : Ast → List Ast
  | node op' cs => if op' = op then cs else [node op' cs]
  | clause c => [clause c]

/-- What `_normalize` makes of an `$and` / `$or` node once its children are flattened. -/
def rebuild (op : Op) : List Ast → Ast
  | [node op' cs] => node op' cs
  | [clause c] => node .and [clause c]
  | flattened => node op flattened

mutual

/-- `_normalize`. -/
def normalize : Ast → Ast
  | clause c => clause c
  | node .not cs => node .not (normalizeAll cs)
  | node op cs => rebuild op ((normalizeAll cs).flatMap (splice op))

def normalizeAll : List Ast → List Ast
  | [] => []
  | c :: cs => normalize c :: normalizeAll cs

end

theorem normalizeAll_eq (cs : List Ast) : normalizeAll cs = cs.map normalize := by
  induction cs with
  | nil => rfl
  | cons c cs ih => simp [normalizeAll, ih]

theorem leaves_splice (op : Op) (t : Ast) : (splice op t).flatMap leaves = t.leaves := by
  cases t with
  | clause c => simp [splice]
  | node op' cs =>
      by_cases h : op' = op <;> simp [splice, h]

theorem leaves_rebuild (op : Op) (ts : List Ast) :
    (rebuild op ts).leaves = ts.flatMap leaves := by
  unfold rebuild
  split <;> simp

/-- **Normalization keeps the leaves and their order.** -/
theorem leaves_normalize (t : Ast) : t.normalize.leaves = t.leaves := by
  induction t using Ast.induct with
  | clause c => rfl
  | node op cs ih =>
      have hmap : (cs.map normalize).flatMap leaves = cs.flatMap leaves := by
        rw [List.flatMap_map]
        exact List.flatMap_congr ih
      have hnode : ∀ op', (rebuild op' ((normalizeAll cs).flatMap (splice op'))).leaves =
          cs.flatMap leaves := by
        intro op'
        rw [leaves_rebuild, List.flatMap_assoc, normalizeAll_eq, ← hmap]
        exact List.flatMap_congr fun t _ => leaves_splice op' t
      cases op
      case not => rw [normalize, normalizeAll_eq, leaves_node, hmap, leaves_node]
      all_goals
        rw [leaves_node]
        exact hnode _

theorem wellFormed_rebuild {op : Op} {ts : List Ast} (hop : op = .and ∨ op = .or)
    (h : ∀ t ∈ ts, t.wellFormed = true) : (rebuild op ts).wellFormed = true := by
  unfold rebuild
  split
  · exact h _ (by simp)
  · exact wellFormed_and.mpr h
  · rcases hop with rfl | rfl
    · exact wellFormed_and.mpr h
    · exact wellFormed_or.mpr h

theorem wellFormed_splice {op : Op} {t : Ast} (h : t.wellFormed = true)
    (hop : op = .and ∨ op = .or) : ∀ s ∈ splice op t, s.wellFormed = true := by
  cases t with
  | clause c => simpa [splice] using h
  | node op' cs =>
      by_cases heq : op' = op
      · subst heq
        rcases hop with rfl | rfl
        · simpa [splice] using wellFormed_and.mp h
        · simpa [splice] using wellFormed_or.mp h
      · simpa [splice, heq] using h

/-- Normalization keeps the shape. -/
theorem wellFormed_normalize {t : Ast} (h : t.wellFormed = true) :
    t.normalize.wellFormed = true := by
  have hchildren : ∀ {op : Op} {cs : List Ast}, op = .and ∨ op = .or →
      (∀ c ∈ cs, c.normalize.wellFormed = true) →
      (rebuild op ((normalizeAll cs).flatMap (splice op))).wellFormed = true := by
    intro op cs hop ih
    refine wellFormed_rebuild hop fun s hs => ?_
    obtain ⟨c, hc, hsc⟩ := List.mem_flatMap.mp hs
    rw [normalizeAll_eq] at hc
    obtain ⟨d, hd, rfl⟩ := List.mem_map.mp hc
    exact wellFormed_splice (ih d hd) hop s hsc
  refine induct_wellFormed (fun c => rfl) (fun cs _ ih => ?_) (fun cs _ ih => ?_)
    (fun c _ ih => ?_) t h
  · exact hchildren (.inl rfl) ih
  · exact hchildren (.inr rfl) ih
  · exact wellFormed_not.mpr ⟨_, rfl, ih⟩

theorem orsFilled_rebuild {op : Op} {ts : List Ast} (hne : op = .or → ts ≠ [])
    (h : ∀ t ∈ ts, t.orsFilled = true) : (rebuild op ts).orsFilled = true := by
  unfold rebuild
  split
  · exact h _ (by simp)
  · exact orsFilled_node.mpr ⟨by simp, h⟩
  · exact orsFilled_node.mpr ⟨hne, h⟩

theorem orsFilled_splice {op : Op} {t : Ast} (h : t.orsFilled = true) :
    ∀ s ∈ splice op t, s.orsFilled = true := by
  cases t with
  | clause c => simpa [splice] using h
  | node op' cs =>
      by_cases heq : op' = op
      · simpa [splice, heq] using (orsFilled_node.mp h).2
      · simpa [splice, heq] using h

theorem splice_or_ne_nil {t : Ast} (h : t.orsFilled = true) : splice .or t ≠ [] := by
  cases t with
  | clause c => simp [splice]
  | node op cs =>
      by_cases hop : op = .or
      · simpa [splice, hop] using (orsFilled_node.mp h).1 hop
      · simp [splice, hop]

/-- Normalization empties no `$or`. -/
theorem orsFilled_normalize {t : Ast} (h : t.orsFilled = true) : t.normalize.orsFilled = true := by
  induction t using Ast.induct with
  | clause c => rfl
  | node op cs ih =>
      obtain ⟨hne, hcs⟩ := orsFilled_node.mp h
      have hmem : ∀ t ∈ normalizeAll cs, t.orsFilled = true := by
        rw [normalizeAll_eq]
        intro t ht
        obtain ⟨c, hc, rfl⟩ := List.mem_map.mp ht
        exact ih c hc (hcs c hc)
      have hspliced : ∀ op', ∀ s ∈ (normalizeAll cs).flatMap (splice op'), s.orsFilled = true := by
        intro op' s hs
        obtain ⟨t, ht, hs⟩ := List.mem_flatMap.mp hs
        exact orsFilled_splice (hmem t ht) s hs
      cases op
      case not => exact orsFilled_node.mpr ⟨by simp, hmem⟩
      case or =>
          refine orsFilled_rebuild (fun _ hnil => ?_) (hspliced .or)
          obtain ⟨c, rest, rfl⟩ := List.exists_cons_of_ne_nil (hne rfl)
          have hfirst := List.flatMap_eq_nil_iff.mp hnil c.normalize (by simp [normalizeAll])
          exact splice_or_ne_nil (hmem _ (by simp [normalizeAll])) hfirst
      all_goals exact orsFilled_rebuild (by simp) (hspliced _)

/-- A node normalizes to a node: the root is never a bare clause. -/
theorem exists_normalize_node (op : Op) (cs : List Ast) :
    ∃ op' cs', (node op cs).normalize = node op' cs' := by
  have hrebuild : ∀ op' ts, ∃ op'' cs', rebuild op' ts = node op'' cs' := by
    intro op' ts
    unfold rebuild
    split <;> exact ⟨_, _, rfl⟩
  cases op
  case not => exact ⟨_, _, rfl⟩
  all_goals exact hrebuild _ _

section Eval

variable (v : FilterClause → Bool)

theorem eval_rebuild_and (ts : List Ast) : eval v (rebuild .and ts) = ts.all (eval v) := by
  unfold rebuild
  split <;> simp

theorem eval_rebuild_or (ts : List Ast) : eval v (rebuild .or ts) = ts.any (eval v) := by
  unfold rebuild
  split <;> simp

theorem all_splice_and (t : Ast) : (splice .and t).all (eval v) = eval v t := by
  cases t with
  | clause c => simp [splice]
  | node op cs =>
      by_cases h : op = .and
      · subst h
        simp [splice]
      · simp [splice, h]

theorem any_splice_or (t : Ast) : (splice .or t).any (eval v) = eval v t := by
  cases t with
  | clause c => simp [splice]
  | node op cs =>
      by_cases h : op = .or
      · subst h
        simp [splice]
      · simp [splice, h]

theorem all_congr_mem {cs : List Ast} {f g : Ast → Bool} (h : ∀ c ∈ cs, f c = g c) :
    cs.all f = cs.all g := by
  rw [Bool.eq_iff_iff, List.all_eq_true, List.all_eq_true]
  exact forall₂_congr fun c hc => by rw [h c hc]

theorem any_congr_mem {cs : List Ast} {f g : Ast → Bool} (h : ∀ c ∈ cs, f c = g c) :
    cs.any f = cs.any g := by
  rw [Bool.eq_iff_iff, List.any_eq_true, List.any_eq_true]
  exact exists_congr fun c => and_congr_right fun hc => by rw [h c hc]

/-- **Normalization keeps the meaning.** -/
theorem eval_normalize (t : Ast) (h : t.wellFormed = true) : eval v t.normalize = eval v t := by
  refine induct_wellFormed (fun c => ?_) (fun cs _ ih => ?_) (fun cs _ ih => ?_)
    (fun c _ ih => ?_) t h
  · rfl
  · calc eval v (node .and cs).normalize
        = ((cs.map normalize).flatMap (splice .and)).all (eval v) := by
          rw [normalize, normalizeAll_eq, eval_rebuild_and]
          simp
      _ = cs.all fun c => eval v c.normalize := by
          simp [List.all_flatMap, all_splice_and, Function.comp_def]
      _ = eval v (node .and cs) := by
          rw [eval_and]
          exact all_congr_mem ih
  · calc eval v (node .or cs).normalize
        = ((cs.map normalize).flatMap (splice .or)).any (eval v) := by
          rw [normalize, normalizeAll_eq, eval_rebuild_or]
          simp
      _ = cs.any fun c => eval v c.normalize := by
          simp [List.any_flatMap, any_splice_or, Function.comp_def]
      _ = eval v (node .or cs) := by
          rw [eval_or]
          exact any_congr_mem ih
  · rw [normalize]
    simp [normalizeAll, ih]

end Eval

end Ast

end Khora
