import Khora.Filter.Lance
import Khora.Filter.Postgres
import Khora.Filter.Surreal
import Mathlib.Data.List.Flatten

/-!
# The gate against the emission

Each pushdown compiler decides twice which leaves it can express: once in the gate
that `$or`, `$not` and the report consult, once while it emits.  Here the two are
compared leaf by leaf, and the report is derived from their agreement.

* `lanceGate_iff`, `postgresGate_iff`, `surrealGate` — when gate and emission agree.
* `consumedKeys_exact` — where they agree, the reported keys are the paths all of whose
  occurrences were emitted.
-/

namespace Khora

open Fallible

/-! ## Agreement and the report -/

section Report

variable {τ : Type} {T : Target τ} {ctx : CompileContext} {ok : FilterClause → Bool}
  {clause : FilterClause → Except PyErr (Emitted τ)}

/-- The compiler emits a real predicate for a leaf: it returns and records the path. -/
def Emits (clause : FilterClause → Except PyErr (Emitted τ)) (c : FilterClause) : Prop :=
  ∃ x, clause c = .ok x ∧ x.consumed = [c.pathStr]

/-- Gate and emission agree on a leaf. -/
def GateAgrees (ok : FilterClause → Bool) (clause : FilterClause → Except PyErr (Emitted τ))
    (c : FilterClause) : Prop :=
  ok c = true ↔ Emits clause c

/-- A leaf records its path once or not at all. -/
def RecordsOnce (clause : FilterClause → Except PyErr (Emitted τ)) : Prop :=
  ∀ c x, clause c = .ok x → x.consumed = [c.pathStr] ∨ x.consumed = []

/-- The paths of what is left of a tree. -/
def prunedPaths : Option Ast → List String
  | some t => t.leafPaths
  | none => []

theorem leafPaths_node (op : Op) (cs : List Ast) :
    (Ast.node op cs).leafPaths = cs.flatMap Ast.leafPaths := by
  rw [Ast.leafPaths, Ast.leaves_node, List.map_flatMap]
  rfl

theorem leafPaths_filterMap_prune (cs : List Ast) :
    (cs.filterMap (prune ok)).flatMap Ast.leafPaths = cs.flatMap fun c => prunedPaths (prune ok c) := by
  induction cs with
  | nil => rfl
  | cons c cs ih => cases h : prune ok c <;> simp [h, ih, prunedPaths]

/-- Nothing is pruned from a consumable subtree. -/
theorem prunedPaths_of_consumable {t : Ast} (h : t.wellFormed = true)
    (hok : nodeConsumable ok t = true) : prunedPaths (prune ok t) = t.leafPaths := by
  revert hok
  refine Ast.induct_wellFormed (fun c hok => ?_) (fun cs _ ih hok => ?_) (fun cs _ _ hok => ?_)
    (fun c _ _ hok => ?_) t h
  · have : ok c = true := hok
    simp [prune, this, prunedPaths]
  · rw [nodeConsumable_node, List.all_eq_true] at hok
    rw [prune_and, prunedPaths, leafPaths_node, leafPaths_filterMap_prune, leafPaths_node]
    exact List.flatMap_congr fun c hc => ih c hc (hok c hc)
  · rw [prune_or, if_pos hok, prunedPaths]
  · rw [prune_not, if_pos hok, prunedPaths]

theorem consumed_children {cs : List Ast} {xs : List (Emitted τ)} {w : Ast → List String}
    (hxs : List.Forall₂ (fun c x => compileNode T.recording true ok clause c = .ok x) cs xs)
    (h : ∀ c ∈ cs, ∀ x, compileNode T.recording true ok clause c = .ok x → x.consumed = w c) :
    xs.flatMap Emitted.consumed = cs.flatMap w := by
  induction hxs with
  | nil => rfl
  | cons hx _ ih =>
      rw [List.flatMap_cons, List.flatMap_cons, h _ (by simp) _ hx,
        ih fun c hc => h c (List.mem_cons_of_mem _ hc)]

/-- **The walk records the leaves the gate keeps**, when gate and emission agree. -/
theorem consumed_compileNode (hrec : RecordsOnce clause) {t : Ast} (h : t.wellFormed = true)
    (hagree : ∀ c ∈ t.leaves, GateAgrees ok clause c) :
    ∀ x, compileNode T.recording true ok clause t = .ok x →
      x.consumed = prunedPaths (prune ok t) := by
  have hgate : ∀ t : Ast, (true && !nodeConsumable ok t) = true ↔ ¬ nodeConsumable ok t = true := by
    simp
  have hmem : ∀ {op : Op} {cs : List Ast},
      (∀ c ∈ (Ast.node op cs).leaves, GateAgrees ok clause c) →
      ∀ d ∈ cs, ∀ c ∈ d.leaves, GateAgrees ok clause c := by
    intro op cs hall d hd c hc
    refine hall c ?_
    rw [Ast.leaves_node]
    exact List.mem_flatMap.mpr ⟨d, hd, hc⟩
  revert hagree
  refine Ast.induct_wellFormed (fun c ha x hx => ?_) (fun cs _ ih ha x hx => ?_)
    (fun cs hcs ih ha x hx => ?_) (fun c hc ih ha x hx => ?_) t h
  · have hx : clause c = .ok x := hx
    cases hok : ok c with
    | true =>
        obtain ⟨y, hy, hcons⟩ := (ha c (by simp)).mp hok
        obtain rfl := Except.ok.inj (hx.symm.trans hy)
        simp [prune, hok, prunedPaths, hcons, Ast.leafPaths]
    | false =>
        have hnot : ¬ Emits clause c := by
          intro he
          rw [(ha c (by simp)).mpr he] at hok
          cases hok
        have hcons := (hrec c x hx).resolve_left fun hc => hnot ⟨x, hx, hc⟩
        simp [prune, hok, prunedPaths, hcons]
  · rw [prune_and, prunedPaths, leafPaths_node, leafPaths_filterMap_prune]
    cases cs with
    | nil =>
        cases hx
        rfl
    | cons c cs =>
        rw [compileNode, map_eq_ok] at hx
        obtain ⟨xs, hxs, rfl⟩ := hx
        exact consumed_children (compileNodes_eq_ok.mp hxs) fun d hd => ih d hd (hmem ha d hd)
  · rw [prune_or]
    cases cs with
    | nil =>
        cases hx
        rfl
    | cons c cs =>
        rw [compileNode] at hx
        split at hx
        · rename_i hg
          cases hx
          rw [if_neg ((hgate _).mp hg)]
          rfl
        · rename_i hg
          have hok : nodeConsumable ok (.node .or (c :: cs)) = true := not_not.mp ((hgate _).not.mp hg)
          rw [if_pos hok, prunedPaths, leafPaths_node]
          rw [nodeConsumable_node, List.all_eq_true] at hok
          obtain ⟨xs, hxs, rfl⟩ := map_eq_ok.mp hx
          exact consumed_children (compileNodes_eq_ok.mp hxs) fun d hd y hy =>
            (ih d hd (hmem ha d hd) y hy).trans (prunedPaths_of_consumable (hcs d hd) (hok d hd))
  · rw [prune_not]
    rw [compileNode] at hx
    · split at hx
      · rename_i hg
        cases hx
        rw [if_neg ((hgate _).mp hg)]
        rfl
      · rename_i hg
        have hok : nodeConsumable ok (.node .not [c]) = true := not_not.mp ((hgate _).not.mp hg)
        rw [if_pos hok, prunedPaths, leafPaths_node]
        rw [nodeConsumable_node, List.all_eq_true] at hok
        obtain ⟨y, hy, rfl⟩ := map_eq_ok.mp hx
        show y.consumed = _
        rw [ih (hmem ha c (by simp)) y hy, prunedPaths_of_consumable hc (hok c (by simp)),
          List.flatMap_singleton]
    · simp
    · simp

/-- What is left of a tree is part of it. -/
theorem prunedPaths_sublist {t : Ast} (h : t.wellFormed = true) :
    (prunedPaths (prune ok t)).Sublist t.leafPaths := by
  refine Ast.induct_wellFormed (fun c => ?_) (fun cs _ ih => ?_) (fun cs _ _ => ?_)
    (fun c _ _ => ?_) t h
  · rw [prune]
    split
    · exact List.Sublist.refl _
    · exact List.nil_sublist _
  · rw [prune_and, prunedPaths, leafPaths_node, leafPaths_filterMap_prune, leafPaths_node]
    exact List.Sublist.flatMap_right cs ih
  · rw [prune_or]
    split
    · exact List.Sublist.refl _
    · exact List.nil_sublist _
  · rw [prune_not]
    split
    · exact List.Sublist.refl _
    · exact List.nil_sublist _

/-- The slice of the report has the leaves that are left. -/
theorem leafPaths_consumedSubtree (t : Ast) :
    (consumedSubtree ok t).leafPaths = prunedPaths (prune ok t) := by
  unfold consumedSubtree
  split
  · rename_i h
    rw [h]
    rfl
  · rename_i c h
    rw [h, Ast.leafPaths, Ast.leaves_normalize]
    simp [prunedPaths, Ast.leafPaths]
  · rename_i p _ h
    rw [h, Ast.leafPaths, Ast.leaves_normalize]
    rfl

/-- The reported keys are the paths all of whose occurrences were emitted. -/
def ConsumedKeysExact (T : Target τ) (ctx : CompileContext) (ok : FilterClause → Bool)
    (clause : FilterClause → Except PyErr (Emitted τ)) (t : Ast) : Prop :=
  ∀ e, compileNode T.recording true ok clause t = .ok e →
    ∃ f, compileFilter T ctx ok clause t = .ok f ∧
      ∀ p, p ∈ f.consumedKeys ↔ p ∈ t.leafPaths ∧ e.consumed.count p = t.leafPaths.count p

/-- **Where gate and emission agree, the report is exact.** -/
theorem consumedKeys_exact (hsplit : ctx.onUnsupported = .split) (hrec : RecordsOnce clause)
    {t : Ast} (h : t.wellFormed = true) (hagree : ∀ c ∈ t.leaves, GateAgrees ok clause c) :
    ConsumedKeysExact T ctx ok clause t := by
  intro e he
  refine ⟨_, compileFilter_eq hsplit he, fun p => ?_⟩
  have hcons := consumed_compileNode hrec h hagree e he
  have hle : e.consumed.count p ≤ t.leafPaths.count p := by
    rw [hcons]
    exact (prunedPaths_sublist h).count_le p
  have hdef : p ∈ deferredPaths ok t ↔ p ∈ t.leafPaths ∧ e.consumed.count p < t.leafPaths.count p := by
    rw [deferredPaths, deferredFromSlice, leafPaths_consumedSubtree, ← hcons]
    simp
  have hsub : p ∈ e.consumed → p ∈ t.leafPaths := by
    rw [hcons]
    exact fun hp => (prunedPaths_sublist h).subset hp
  simp only [List.mem_filter, Bool.not_eq_true', List.contains_eq_mem, decide_eq_false_iff_not, hdef]
  constructor
  · rintro ⟨hp, hnd⟩
    refine ⟨hsub hp, le_antisymm hle (not_lt.mp fun hlt => hnd ⟨hsub hp, hlt⟩)⟩
  · rintro ⟨hp, heq⟩
    refine ⟨?_, fun hd => absurd heq (ne_of_lt hd.2)⟩
    rw [← List.count_pos_iff, heq]
    exact List.count_pos_iff.mpr hp

end Report

/-! ## What a leaf records -/

section Leaf

variable {τ : Type} {T : Target τ} {ctx : CompileContext} {c : FilterClause} {x : Emitted τ}

theorem emits_map {r : Except PyErr τ} :
    (∃ x, c.emit <$> r = .ok x ∧ x.consumed = [c.pathStr]) ↔ Returns r := by
  constructor
  · rintro ⟨x, hx, -⟩
    obtain ⟨e, he, -⟩ := map_eq_ok.mp hx
    exact ⟨e, he⟩
  · rintro ⟨e, rfl⟩
    exact ⟨c.emit e, rfl, rfl⟩

theorem consumed_unsupported {reason : String} (h : T.unsupported ctx c reason = .ok x) :
    x.consumed = [] := by
  unfold Target.unsupported at h
  split at h
  · cases h
  · cases h
    rfl

theorem not_emits_unsupported (reason : String) :
    ¬ ∃ x, T.unsupported ctx c reason = .ok x ∧ x.consumed = [c.pathStr] := by
  rintro ⟨x, hx, hc⟩
  rw [consumed_unsupported hx] at hc
  cases hc

theorem emits_option {reason : String} {r : Except PyErr (Option τ)} :
    (∃ x, T.emitOption ctx c reason r = .ok x ∧ x.consumed = [c.pathStr]) ↔ ∃ e, r = .ok (some e) := by
  constructor
  · rintro ⟨x, hx, hc⟩
    obtain ⟨o, ho, hx⟩ := bind_eq_ok.mp hx
    cases o with
    | some e => exact ⟨e, ho⟩
    | none => exact absurd ⟨x, hx, hc⟩ (not_emits_unsupported reason)
  · rintro ⟨e, rfl⟩
    exact ⟨c.emit e, rfl, rfl⟩

theorem records_map {r : Except PyErr τ} (h : c.emit <$> r = .ok x) : x.consumed = [c.pathStr] := by
  obtain ⟨e, -, rfl⟩ := map_eq_ok.mp h
  rfl

theorem records_option {reason : String} {r : Except PyErr (Option τ)}
    (h : T.emitOption ctx c reason r = .ok x) : x.consumed = [c.pathStr] ∨ x.consumed = [] := by
  obtain ⟨o, -, h⟩ := bind_eq_ok.mp h
  cases o with
  | some e =>
      cases h
      exact .inl rfl
  | none => exact .inr (consumed_unsupported h)

end Leaf

/-! ## The three compilers -/

section Compilers

variable {ctx : CompileContext}

/-- The operands on which the two case analyses of the SQLite compiler agree: a dict operand
of a range operator is emitted but not consumable, and an exact array that `json.dumps`
cannot write is consumable but raises. -/
def lanceOperandAgrees (op : Op) (operand : Value) : Prop :=
  match op with
  | .exists_ => True
  | .in_ => True
  | .nin => True
  | .eq => ∀ items, operand = .tuple items → ∀ x ∈ items, (lanceScalar x).writable = true
  | .ne => ∀ items, operand = .tuple items → ∀ x ∈ items, (lanceScalar x).writable = true
  | _ => operand.isDict = false

def LanceGateOk (ctx : CompileContext) (c : FilterClause) : Prop :=
  match c.systemKey?, c.metadataPath? with
  | none, some (_ :: _) => ctx.schemaCapabilities.sqliteJson1 = true → lanceOperandAgrees c.op c.operand
  | _, _ => True

/-- `json.dumps(v, sort_keys=True)` returns. -/
def Value.dumpable (v : Value) : Bool := v.sortable && v.writable

/-- The literals of a metadata leaf of the PostgreSQL compiler can be written. -/
def postgresOperandWritable (op : Op) (operand : Value) : Prop :=
  match op with
  | .eq => (dateToJsonable operand).dumpable = true
  | .ne => (dateToJsonable operand).dumpable = true
  | .in_ => ∀ items, operand = .tuple items → ∀ x ∈ items, (dateToJsonable x).dumpable = true
  | .nin => ∀ items, operand = .tuple items → ∀ x ∈ items, (dateToJsonable x).dumpable = true
  | _ => True

def PostgresGateOk (c : FilterClause) : Prop :=
  match c.systemKey?, c.metadataPath? with
  | none, some [] => c.op = .eq → c.operand.dumpable = true
  | none, some (_ :: _) => postgresOperandWritable c.op c.operand
  | _, _ => True

theorem lance_recordsOnce : RecordsOnce (compileLanceClause ctx) := by
  intro c x h
  unfold compileLanceClause at h
  split at h
  · split at h
    · exact .inl (records_map h)
    · exact .inr (consumed_unsupported h)
  · split at h
    · exact .inr (consumed_unsupported h)
    · exact records_option h
  · exact .inr (consumed_unsupported h)

theorem postgres_recordsOnce : RecordsOnce (compilePostgresClause ctx) := by
  intro c x h
  unfold compilePostgresClause at h
  split at h
  · split at h
    · exact .inl (records_map h)
    · exact .inr (consumed_unsupported h)
  · exact records_option h
  · exact .inr (consumed_unsupported h)

theorem surreal_recordsOnce : RecordsOnce (compileSurrealClause ctx) := by
  intro c x h
  unfold compileSurrealClause at h
  split at h
  · split at h
    · exact .inl (records_map h)
    · exact .inr (consumed_unsupported h)
  · split at h
    · exact .inr (consumed_unsupported h)
    · exact records_option h
  · exact .inr (consumed_unsupported h)

/-! ### SQLite -/

theorem returns_lanceSystemClause {key : String} {op : Op} {operand : Value} (hop : op ∈ clauseOps)
    (htuple : op = .in_ ∨ op = .nin → ∃ xs, operand = .tuple xs) :
    Returns (lanceSystemClause ctx key op operand) := by
  cases op
  case exists_ => exact ⟨_, rfl⟩
  case in_ =>
      obtain ⟨xs, rfl⟩ := htuple (.inl rfl)
      cases xs <;> exact ⟨_, rfl⟩
  case nin =>
      obtain ⟨xs, rfl⟩ := htuple (.inr rfl)
      cases xs <;> exact ⟨_, rfl⟩
  case and | or | nor | not | date => exact absurd hop (by decide)
  all_goals
    simp only [lanceSystemClause, rangeOp?, reduceCtorEq, false_and, true_and, if_false, if_true]
    split_ifs <;> exact ⟨_, rfl⟩

theorem returns_lanceExactArray {segs : List String} {items : List Value} :
    Returns (lanceExactArray ctx segs items) ↔ ∀ x ∈ items, (lanceScalar x).writable = true := by
  have : Returns (lanceExactArray ctx segs items) ↔
      Returns (items.mapM fun item => (lanceScalar item).toJson) := by
    rw [lanceExactArray, returns_bind]
    constructor
    · rintro ⟨js, hjs, -⟩
      exact ⟨js, hjs⟩
    · rintro ⟨js, hjs⟩
      exact ⟨js, hjs, _, rfl⟩
  rw [this, returns_mapM_iff]
  exact forall₂_congr fun x _ => Value.returns_toJson _

/-- When an equality is emitted. -/
theorem lanceEquality_emits {segs : List String} {operand : Value} :
    (∃ e, lanceEquality ctx segs operand = .ok (some e)) ↔
      operand.isDateLiteral = false ∧ operand.isDict = false ∧
        ∀ items, operand = .tuple items → ∀ x ∈ items, (lanceScalar x).writable = true := by
  cases operand
  case tuple items =>
      rw [lanceEquality]
      simp only [Value.isDateLiteral, Value.isDict, true_and, Value.tuple.injEq, forall_eq']
      rw [← @returns_lanceExactArray ctx segs]
      constructor
      · rintro ⟨e, he⟩
        obtain ⟨x, hx, -⟩ := map_eq_ok.mp he
        exact ⟨x, hx⟩
      · rintro ⟨x, hx⟩
        exact ⟨x, by rw [hx]; rfl⟩
  case dateLiteral d => simp [lanceEquality, Value.isDateLiteral]
  case dict fs => simp [lanceEquality, Value.isDict]
  all_goals simp [lanceEquality, Value.isDateLiteral, Value.isDict]

theorem lanceRange_emits {segs : List String} {op : Op} {c : Value.Cmp} {operand : Value}
    (hc : rangeOp? op = some c) :
    (∃ e, lanceMetadataClause ctx segs op operand = .ok (some e)) ↔ operand.isDateLiteral = false := by
  cases hd : operand.isDateLiteral <;> cases op <;> cases hc <;>
    simp [lanceMetadataClause, hd, rangeOp?]

theorem lanceIn_emits {segs : List String} {op : Op} (hop : op = .in_ ∨ op = .nin) (items : List Value) :
    (∃ e, lanceMetadataClause ctx segs op (.tuple items) = .ok (some e)) ↔
      hasUnpushableInElement (.tuple items) = false := by
  cases items with
  | nil => rcases hop with rfl | rfl <;> exact iff_of_true ⟨_, rfl⟩ rfl
  | cons x xs =>
      cases hun : hasUnpushableInElement (.tuple (x :: xs)) with
      | true => rcases hop with rfl | rfl <;> simp [lanceMetadataClause, hun, Value.truthy]
      | false =>
          rcases hop with rfl | rfl
          · exact iff_of_true ⟨_, by simp only [lanceMetadataClause, hun]; rfl⟩ rfl
          · exact iff_of_true ⟨_, by simp only [lanceMetadataClause, hun]; rfl⟩ rfl

theorem isDateLiteral_of_isDict {v : Value} (h : v.isDict = true) : v.isDateLiteral = false := by
  cases v <;> first | rfl | cases h

/-- The gate of a metadata leaf below the blob, against its emission. -/
theorem lanceMetadataGate_iff {segs : List String} {op : Op} {operand : Value} (hop : op ∈ clauseOps)
    (htuple : op = .in_ ∨ op = .nin → ∃ xs, operand = .tuple xs)
    (hexists : op = .exists_ → operand = .none ∨ ∃ b, operand = .bool b) :
    ((!operand.isDateLiteral && !operand.isDict &&
        !((op == .in_ || op == .nin) && hasUnpushableInElement operand)) = true ↔
      ∃ e, lanceMetadataClause ctx segs op operand = .ok (some e)) ↔ lanceOperandAgrees op operand := by
  have hequality : ((operand.isDateLiteral = false ∧ operand.isDict = false) ↔
      ∃ e, lanceEquality ctx segs operand = .ok (some e)) ↔ lanceOperandAgrees .eq operand := by
    rw [lanceEquality_emits]
    by_cases hplain : operand.isDateLiteral = false ∧ operand.isDict = false
    · exact ⟨fun h => (h.mp hplain).2.2, fun hw => iff_of_true hplain ⟨hplain.1, hplain.2, hw⟩⟩
    · refine iff_of_true (iff_of_false hplain fun h => hplain ⟨h.1, h.2.1⟩) ?_
      rintro items rfl
      exact absurd ⟨rfl, rfl⟩ hplain
  have hrange : ∀ c, rangeOp? op = some c → (((operand.isDateLiteral = false ∧ operand.isDict = false) ↔
      ∃ e, lanceMetadataClause ctx segs op operand = .ok (some e)) ↔ operand.isDict = false) := by
    intro c hc
    rw [lanceRange_emits hc]
    constructor
    · intro h
      by_contra hdict
      exact hdict (h.mpr (isDateLiteral_of_isDict (by simpa using hdict))).2
    · exact fun hdict => and_iff_left hdict
  cases op
  case exists_ =>
      refine iff_of_true (iff_of_true ?_ ⟨_, rfl⟩) trivial
      rcases hexists rfl with rfl | ⟨b, rfl⟩ <;> rfl
  case in_ =>
      obtain ⟨xs, rfl⟩ := htuple (.inl rfl)
      rw [lanceIn_emits (.inl rfl)]
      simp [Value.isDateLiteral, Value.isDict, lanceOperandAgrees]
  case nin =>
      obtain ⟨xs, rfl⟩ := htuple (.inr rfl)
      rw [lanceIn_emits (.inr rfl)]
      simp [Value.isDateLiteral, Value.isDict, lanceOperandAgrees]
  case eq => simpa [lanceMetadataClause] using hequality
  case ne =>
      have hmap : (∃ e, lanceMetadataClause ctx segs .ne operand = .ok (some e)) ↔
          ∃ e, lanceEquality ctx segs operand = .ok (some e) := by
        rw [lanceMetadataClause]
        simp only [map_eq_ok, Option.map_eq_some_iff]
        constructor
        · rintro ⟨e, x, hx, y, rfl, -⟩
          exact ⟨y, hx⟩
        · rintro ⟨y, hy⟩
          exact ⟨_, _, hy, y, rfl, rfl⟩
      rw [hmap]
      simpa [lanceOperandAgrees] using hequality
  case gt => simpa [lanceOperandAgrees] using hrange _ rfl
  case gte => simpa [lanceOperandAgrees] using hrange _ rfl
  case lt => simpa [lanceOperandAgrees] using hrange _ rfl
  case lte => simpa [lanceOperandAgrees] using hrange _ rfl
  all_goals exact absurd hop (by decide)

/-- **Gate and emission of the SQLite compiler.** -/
theorem lanceGate_iff {c : FilterClause} (h : OpShape c) :
    GateAgrees (lanceConsumable ctx) (compileLanceClause ctx) c ↔ LanceGateOk ctx c := by
  unfold GateAgrees Emits LanceGateOk
  cases hs : c.systemKey? with
  | some key =>
      refine iff_of_true ?_ trivial
      cases hd : ctx.systemKeyDeclared key with
      | true =>
          simp only [lanceConsumable, compileLanceClause, hs, hd]
          exact iff_of_true trivial (emits_map.mpr (returns_lanceSystemClause h.op_mem h.tuple))
      | false =>
          simp only [lanceConsumable, compileLanceClause, hs, hd]
          exact iff_of_false Bool.false_ne_true (not_emits_unsupported _)
  | none =>
      cases hm : c.metadataPath? with
      | none =>
          refine iff_of_true ?_ trivial
          simp only [lanceConsumable, compileLanceClause, hs, hm]
          exact iff_of_false Bool.false_ne_true (not_emits_unsupported _)
      | some segs =>
          cases hj : ctx.schemaCapabilities.sqliteJson1 with
          | false =>
              cases segs with
              | nil =>
                  refine iff_of_true ?_ trivial
                  simp only [lanceConsumable, compileLanceClause, hs, hm, hj]
                  exact iff_of_false Bool.false_ne_true (not_emits_unsupported _)
              | cons seg segs =>
                  refine iff_of_true ?_ (fun hf => absurd hf Bool.false_ne_true)
                  simp only [lanceConsumable, compileLanceClause, hs, hm, hj]
                  exact iff_of_false (by simp) (not_emits_unsupported _)
          | true =>
              cases segs with
              | nil =>
                  refine iff_of_true ?_ trivial
                  simp only [lanceConsumable, compileLanceClause, hs, hm, hj]
                  refine iff_of_false Bool.false_ne_true fun he => ?_
                  obtain ⟨e, he⟩ := emits_option.mp he
                  simp at he
              | cons seg segs =>
                  have hgate := @lanceMetadataGate_iff ctx (seg :: segs) c.op c.operand h.op_mem h.tuple
                    h.exists_operand
                  simp only [lanceConsumable, compileLanceClause, hs, hm, hj, Bool.true_and, Bool.not_true,
                    forall_true_left]
                  rw [← hgate]
                  refine Iff.of_eq (congrArg _ (propext ?_))
                  exact emits_option

/-! ### PostgreSQL -/

theorem returns_pgSystemClause {key : String} {op : Op} {operand : Value} (hop : op ∈ clauseOps)
    (htuple : op = .in_ ∨ op = .nin → ∃ xs, operand = .tuple xs) :
    Returns (pgSystemClause ctx key op operand) := by
  cases op
  case exists_ => exact ⟨_, rfl⟩
  case in_ =>
      obtain ⟨xs, rfl⟩ := htuple (.inl rfl)
      exact ⟨_, rfl⟩
  case nin =>
      obtain ⟨xs, rfl⟩ := htuple (.inr rfl)
      exact ⟨_, rfl⟩
  case and | or | nor | not | date => exact absurd hop (by decide)
  all_goals
    simp only [pgSystemClause, rangeOp?, reduceCtorEq, false_and, true_and, if_false, if_true]
    split_ifs <;> exact ⟨_, rfl⟩

theorem returns_jsonbLiteral (v : Value) : Returns (jsonbLiteral v) ↔ v.dumpable = true := by
  rw [jsonbLiteral, Value.dumpable, Bool.and_eq_true, ← Value.returns_toJson]
  cases v.sortable <;> simp

theorem returns_pgContainment {segs : List String} {v : Value} :
    Returns (pgContainment ctx segs v) ↔ (dateToJsonable v).dumpable = true := by
  rw [pgContainment, returns_bind_ok, returns_jsonbLiteral]

theorem returns_pgEq {segs : List String} {operand : Value} :
    Returns (pgEq ctx segs operand) ↔ (dateToJsonable operand).dumpable = true := by
  cases operand
  case dateLiteral d => exact iff_of_true ⟨_, rfl⟩ rfl
  case tuple items =>
      rw [pgEq, returns_bind_ok, returns_jsonbLiteral]
      rfl
  case dict fs =>
      rw [pgEq, returns_bind_ok, returns_jsonbLiteral]
      rfl
  all_goals exact returns_pgContainment

theorem returns_pgInElement {segs : List String} {v : Value} :
    Returns (pgInElement ctx segs v) ↔ (dateToJsonable v).dumpable = true := by
  cases v
  case dict fs =>
      rw [pgInElement, returns_bind_ok, returns_jsonbLiteral]
      rfl
  all_goals exact returns_pgContainment

theorem returns_pgMetadataPath {segs : List String} {op : Op} {operand : Value} (hop : op ∈ clauseOps)
    (htuple : op = .in_ ∨ op = .nin → ∃ xs, operand = .tuple xs) :
    Returns (pgMetadataPath ctx segs op operand) ↔ postgresOperandWritable op operand := by
  have hin : ∀ xs : List Value, Returns (xs.mapM (pgInElement ctx segs)) ↔
      ∀ x ∈ xs, (dateToJsonable x).dumpable = true := by
    intro xs
    rw [returns_mapM_iff]
    exact forall₂_congr fun x _ => returns_pgInElement
  cases op
  case exists_ => exact iff_of_true ⟨_, rfl⟩ trivial
  case in_ =>
      obtain ⟨xs, rfl⟩ := htuple (.inl rfl)
      cases xs with
      | nil => exact iff_of_true ⟨_, rfl⟩ (by simp [postgresOperandWritable])
      | cons x xs =>
          show Returns ((x :: xs).mapM (pgInElement ctx segs) >>= fun es => .ok (PgCond.any es)) ↔ _
          rw [returns_bind_ok, hin]
          simp [postgresOperandWritable]
  case nin =>
      obtain ⟨xs, rfl⟩ := htuple (.inr rfl)
      cases xs with
      | nil => exact iff_of_true ⟨_, rfl⟩ (by simp [postgresOperandWritable])
      | cons x xs =>
          show Returns ((x :: xs).mapM (pgInElement ctx segs) >>= fun es => .ok (PgCond.not (.any es))) ↔ _
          rw [returns_bind_ok, hin]
          simp [postgresOperandWritable]
  case eq =>
      rw [pgMetadataPath, postgresOperandWritable]
      cases hn : operand.isNone with
      | true =>
          obtain rfl := isNone_iff.mp hn
          exact iff_of_true ⟨_, rfl⟩ rfl
      | false => exact returns_pgEq
  case ne =>
      rw [pgMetadataPath, postgresOperandWritable]
      cases hn : operand.isNone with
      | true =>
          obtain rfl := isNone_iff.mp hn
          exact iff_of_true ⟨_, rfl⟩ rfl
      | false =>
          simp only [Bool.false_eq_true, if_false, returns_map]
          exact returns_pgEq
  case gt => exact iff_of_true ⟨_, rfl⟩ trivial
  case gte => exact iff_of_true ⟨_, rfl⟩ trivial
  case lt => exact iff_of_true ⟨_, rfl⟩ trivial
  case lte => exact iff_of_true ⟨_, rfl⟩ trivial
  all_goals exact absurd hop (by decide)

/-- A map into `some` is emitted when it returns. -/
theorem exists_some_map {α β : Type} {x : Except PyErr α} {f : α → β} :
    (∃ e, (fun a => some (f a)) <$> x = .ok (some e)) ↔ Returns x := by
  cases x <;> simp [Functor.map, Except.map]

/-- **Gate and emission of the PostgreSQL compiler.** -/
theorem postgresGate_iff {c : FilterClause} (h : OpShape c) :
    GateAgrees (postgresConsumable ctx) (compilePostgresClause ctx) c ↔ PostgresGateOk c := by
  unfold GateAgrees Emits PostgresGateOk
  cases hs : c.systemKey? with
  | some key =>
      refine iff_of_true ?_ trivial
      cases hd : ctx.systemKeyDeclared key with
      | true =>
          simp only [postgresConsumable, compilePostgresClause, hs, hd]
          exact iff_of_true trivial (emits_map.mpr (returns_pgSystemClause h.op_mem h.tuple))
      | false =>
          simp only [postgresConsumable, compilePostgresClause, hs, hd]
          exact iff_of_false Bool.false_ne_true (not_emits_unsupported _)
  | none =>
      cases hm : c.metadataPath? with
      | none =>
          refine iff_of_true ?_ trivial
          simp only [postgresConsumable, compilePostgresClause, hs, hm]
          exact iff_of_false Bool.false_ne_true (not_emits_unsupported _)
      | some segs =>
          simp only [postgresConsumable, compilePostgresClause, hs, hm]
          rw [emits_option]
          cases segs with
          | nil =>
              by_cases heq : c.op = .eq
              · simp only [pgMetadataClause, heq, if_true, forall_true_left]
                rw [exists_some_map, returns_jsonbLiteral]
                simp
              · simp [pgMetadataClause, heq]
          | cons seg segs =>
              show ((!(seg :: segs).isEmpty || c.op == .eq) = true ↔
                ∃ e, some <$> pgMetadataPath ctx (seg :: segs) c.op c.operand = .ok (some e)) ↔ _
              rw [exists_some_map, returns_pgMetadataPath h.op_mem h.tuple]
              simp

/-! ### SurrealDB -/

theorem returns_surrealSystemClause {key : String} {op : Op} {operand : Value} (hop : op ∈ clauseOps)
    (htuple : op = .in_ ∨ op = .nin → ∃ xs, operand = .tuple xs) :
    Returns (surrealSystemClause ctx key op operand) := by
  cases op
  case exists_ => exact ⟨_, rfl⟩
  case in_ =>
      obtain ⟨xs, rfl⟩ := htuple (.inl rfl)
      cases xs <;> exact ⟨_, rfl⟩
  case nin =>
      obtain ⟨xs, rfl⟩ := htuple (.inr rfl)
      cases xs <;> exact ⟨_, rfl⟩
  case and | or | nor | not | date => exact absurd hop (by decide)
  all_goals
    simp only [surrealSystemClause, rangeOp?, reduceCtorEq, if_false, if_true]
    split_ifs <;> exact ⟨_, rfl⟩

theorem surrealMetadataPath_eq {segs : List String} (h : segmentsSafe segs = true) :
    surrealMetadataPath ctx segs = .ok (ctx.physical "metadata" :: segs) := by
  rw [surrealMetadataPath]
  have hnone : segs.find? (fun seg => !safeSegment seg) = none := by
    rw [List.find?_eq_none]
    intro seg hseg
    simpa using List.all_eq_true.mp h seg hseg
  rw [hnone]

/-- With safe labels a metadata leaf below the blob is always emitted. -/
theorem surrealMetadata_emits {seg : String} {segs : List String} {op : Op} {operand : Value}
    (hsafe : segmentsSafe (seg :: segs) = true) (hop : op ∈ clauseOps)
    (htuple : op = .in_ ∨ op = .nin → ∃ xs, operand = .tuple xs) :
    ∃ e, surrealMetadataClause ctx (seg :: segs) op operand = .ok (some e) := by
  simp only [surrealMetadataClause, surrealMetadataPath_eq hsafe]
  cases op
  case exists_ => exact ⟨_, rfl⟩
  case in_ =>
      obtain ⟨xs, rfl⟩ := htuple (.inl rfl)
      cases xs <;> exact ⟨_, rfl⟩
  case nin =>
      obtain ⟨xs, rfl⟩ := htuple (.inr rfl)
      cases xs <;> exact ⟨_, rfl⟩
  case and | or | nor | not | date => exact absurd hop (by decide)
  all_goals
    simp only [bind, Except.bind, rangeOp?, reduceCtorEq, if_false, if_true]
    split_ifs <;> exact ⟨_, rfl⟩

/-- **Gate and emission of the SurrealDB compiler agree in split mode.** -/
theorem surrealGate (hsplit : ctx.onUnsupported = .split) {c : FilterClause} (h : OpShape c) :
    GateAgrees (surrealConsumable ctx) (compileSurrealClause ctx) c := by
  have hs' : ctx.isSplit = true := by simp [CompileContext.isSplit, hsplit]
  unfold GateAgrees Emits
  cases hs : c.systemKey? with
  | some key =>
      cases hd : surrealDeclared ctx key with
      | true =>
          simp only [surrealConsumable, compileSurrealClause, hs, hd]
          exact iff_of_true trivial (emits_map.mpr (returns_surrealSystemClause h.op_mem h.tuple))
      | false =>
          simp only [surrealConsumable, compileSurrealClause, hs, hd]
          exact iff_of_false Bool.false_ne_true (not_emits_unsupported _)
  | none =>
      cases hm : c.metadataPath? with
      | none =>
          simp only [surrealConsumable, compileSurrealClause, hs, hm]
          exact iff_of_false Bool.false_ne_true (not_emits_unsupported _)
      | some segs =>
          cases segs with
          | nil =>
              simp only [surrealConsumable, compileSurrealClause, hs, hm, hs', segmentsSafe, List.all_nil]
              show (c.op == .eq) = true ↔ _
              refine Iff.trans ?_ emits_option.symm
              by_cases heq : c.op = .eq <;> simp [surrealMetadataClause, heq]
          | cons seg segs =>
              cases hsafe : segmentsSafe (seg :: segs) with
              | true =>
                  simp only [surrealConsumable, compileSurrealClause, hs, hm, hs', hsafe]
                  exact iff_of_true trivial
                    (emits_option.mpr (surrealMetadata_emits hsafe h.op_mem h.tuple))
              | false =>
                  simp only [surrealConsumable, compileSurrealClause, hs, hm, hs', hsafe]
                  exact iff_of_false Bool.false_ne_true (not_emits_unsupported _)

/-- **Gate and emission.**  Leaf by leaf, the SQLite compiler's two case analyses agree
exactly on the operands of `LanceGateOk`, the PostgreSQL compiler's exactly when its
literals can be written, and the SurrealDB compiler's always; and where they agree on
all leaves, the reported keys are the paths all of whose occurrences were emitted. -/
theorem gate_emission {raw f : RecallFilter} {t : Ast} (hvalid : raw.validate = .ok f)
    (hparse : parseToAst f = .ok t) (hsplit : ctx.onUnsupported = .split) :
    (∀ c ∈ t.leaves,
      (GateAgrees (lanceConsumable ctx) (compileLanceClause ctx) c ↔ LanceGateOk ctx c) ∧
      (GateAgrees (postgresConsumable ctx) (compilePostgresClause ctx) c ↔ PostgresGateOk c) ∧
      GateAgrees (surrealConsumable ctx) (compileSurrealClause ctx) c) ∧
    ((∀ c ∈ t.leaves, LanceGateOk ctx c) →
      ConsumedKeysExact lanceTarget ctx (lanceConsumable ctx) (compileLanceClause ctx) t) ∧
    ((∀ c ∈ t.leaves, PostgresGateOk c) →
      ConsumedKeysExact postgresTarget ctx (postgresConsumable ctx) (compilePostgresClause ctx) t) ∧
    ConsumedKeysExact surrealTarget ctx (surrealConsumable ctx) (compileSurrealClause ctx) t := by
  have hs := ((parseToAst_iff f (RecallFilter.valid_of_validate hvalid)).value t hparse).2
  have hw : t.wellFormed = true := hs.wellFormed t (by simp)
  have hshape : ∀ c ∈ t.leaves, OpShape c := by simpa using hs.shaped
  refine ⟨fun c hc => ⟨lanceGate_iff (hshape c hc), postgresGate_iff (hshape c hc),
    surrealGate hsplit (hshape c hc)⟩, fun hok => ?_, fun hok => ?_, ?_⟩
  · exact consumedKeys_exact hsplit lance_recordsOnce hw fun c hc =>
      (lanceGate_iff (hshape c hc)).mpr (hok c hc)
  · exact consumedKeys_exact hsplit postgres_recordsOnce hw fun c hc =>
      (postgresGate_iff (hshape c hc)).mpr (hok c hc)
  · exact consumedKeys_exact hsplit surreal_recordsOnce hw fun c hc => surrealGate hsplit (hshape c hc)

theorem gate_emission_dueFilter : ∃ f t, dueFilter.validate = .ok f ∧ parseToAst f = .ok t ∧
    (∀ c ∈ t.leaves, GateAgrees (surrealConsumable json1Context) (compileSurrealClause json1Context) c) ∧
    ConsumedKeysExact surrealTarget json1Context (surrealConsumable json1Context)
      (compileSurrealClause json1Context) t := by
  have h := @gate_emission json1Context dueFilter _ _ rfl rfl rfl
  exact ⟨_, _, rfl, rfl, fun c hc => (h.1 c hc).2.2, h.2.2.2⟩

/-- `metadata.k` greater than an object. -/
def objectRangeFilter : RecallFilter :=
  { emptyFilter with
    foldedPredicates := [("metadata.k", .dict [(.str "$gt", .dict [(.str "a", .int 1)])])] }

/-- The SQLite gate rejects the range over an object, and the emission records it. -/
theorem objectRange_gate_differs : ∃ f t c, objectRangeFilter.validate = .ok f ∧
    parseToAst f = .ok t ∧ c ∈ t.leaves ∧ lanceConsumable json1Context c = false ∧
    Emits (compileLanceClause json1Context) c ∧
    ¬ GateAgrees (lanceConsumable json1Context) (compileLanceClause json1Context) c := by
  refine ⟨_, _, _, rfl, rfl, List.mem_singleton_self _, rfl, ⟨_, rfl, rfl⟩, fun hagree => ?_⟩
  exact Bool.false_ne_true (hagree.mpr ⟨_, rfl, rfl⟩)

end Compilers

end Khora
