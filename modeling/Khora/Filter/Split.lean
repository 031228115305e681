import Khora.Filter.Ast

/-!
# Split-mode pushdown

A compiler that runs in split mode replaces a leaf it cannot express by a
match-all placeholder.  The placeholder is only safe in positive position, so an
`$or` or a `$not` is emitted only when its whole subtree is (`nodeConsumable`),
and is otherwise deferred as a whole.  The walk over logical nodes is the same in
every SQL-like compiler; it is written once here, over an arbitrary target.

* `pushdown_sound` — what the walk emits never excludes a row the filter keeps,
  adds nothing to the in-memory filter, and means `consumedSubtree`.
* `returns_compileNode` — the walk raises only where a leaf does.
-/

namespace Khora

/-! ## The compile context -/

/-- What a backend can do natively. -/
structure SchemaCapabilities where
  jsonbPathQuery : Bool
  fullText : Bool
  nativeMapMetadata : Bool
  sqliteJson1 : Bool
deriving DecidableEq, Repr

/-- The policy for a clause the backend cannot express. -/
inductive OnUnsupported where
  | raise
  | split
deriving DecidableEq, Repr

/-- The context of one compile pass.  `fieldMapping` is `none` for the identity. -/
structure CompileContext where
  backendTarget : String
  tableAlias : Option String
  paramNamespace : String
  fieldMapping : Option (List (String × String))
  schemaCapabilities : SchemaCapabilities
  onUnsupported : OnUnsupported
deriving DecidableEq, Repr

namespace CompileContext

/-- `system_key_declared`: a mapping that is present is also a whitelist. -/
def systemKeyDeclared (ctx : CompileContext) (key : String) : Bool :=
  match ctx.fieldMapping with
  | none => true
  | some m => m.any fun f => f.1 == key

/-- `(ctx.field_mapping or {}).get(key, key)`. -/
def physical (ctx : CompileContext) (key : String) : String :=
  match ctx.fieldMapping with
  | none => key
  | some m => ((m.find? fun f => f.1 == key).map Prod.snd).getD key

def isSplit (ctx : CompileContext) : Bool := ctx.onUnsupported == .split

end CompileContext

/-! ## Definitions of the gate and the walk -/

/-- The target of a compiler: its constants and connectives. -/
structure Target (τ : Type) where
  matchAll : τ
  matchNone : τ
  all : List τ → τ
  any : List τ → τ
  neg : τ → τ

/-- A truth value for target terms that reads the connectives as such. -/
structure Target.Models {τ : Type} (T : Target τ) (val : τ → Bool) : Prop where
  matchAll : val T.matchAll = true
  matchNone : val T.matchNone = false
  all : ∀ l, l ≠ [] → val (T.all l) = l.all val
  any : ∀ l, l ≠ [] → val (T.any l) = l.any val
  neg : ∀ x, val (T.neg x) = !val x

section Gate

variable (ok : FilterClause → Bool)

mutual

/-- `node_consumable`: the whole subtree compiles. -/
def nodeConsumable : Ast → Bool
  | .clause c => ok c
  | .node _ cs => nodesConsumable cs

def nodesConsumable : List Ast → Bool
  | [] => true
  | c :: cs => nodeConsumable c && nodesConsumable cs

end

mutual

/-- `_prune`: what reaches the backend of a subtree, `none` when it is deferred whole. -/
def prune : Ast → Option Ast
  | .clause c => if ok c then some (.clause c) else none
  | .node .and cs => some (.node .and (pruneAll cs))
  | .node op cs => if nodeConsumable ok (.node op cs) then some (.node op cs) else none

def pruneAll : List Ast → List Ast
  | [] => []
  | c :: cs => match prune c with
      | some p => p :: pruneAll cs
      | none => pruneAll cs

end

/-- `consumed_subtree`. -/
def consumedSubtree (t : Ast) : Ast :=
  match prune ok t with
  | none => .node .and []
  | some (.clause c) => Ast.normalize (.node .and [.clause c])
  | some p => p.normalize

/-- `_deferred_from_slice`: paths that occur more often in the tree than in the slice. -/
def deferredFromSlice (t slice : Ast) : List String :=
  t.leafPaths.filter fun p => slice.leafPaths.count p < t.leafPaths.count p

/-- `deferred_paths`. -/
def deferredPaths (t : Ast) : List String := deferredFromSlice t (consumedSubtree ok t)

end Gate

section Walk

variable {τ : Type} (T : Target τ) (split : Bool) (ok : FilterClause → Bool)
  (clause : FilterClause → Except PyErr τ)

mutual

/-- `_Builder.compile_node`. -/
def compileNode : Ast → Except PyErr τ
  | .clause c => clause c
  | .node .and [] => .ok T.matchAll
  | .node .and (c :: cs) => T.all <$> compileNodes (c :: cs)
  | .node .or [] => .ok T.matchNone
  | .node .or (c :: cs) =>
      if split && !nodeConsumable ok (.node .or (c :: cs)) then .ok T.matchAll
      else T.any <$> compileNodes (c :: cs)
  | .node op [] =>
      if split && !nodeConsumable ok (.node op []) then .ok T.matchAll else .error .indexError
  | .node op (c :: cs) =>
      if split && !nodeConsumable ok (.node op (c :: cs)) then .ok T.matchAll
      else T.neg <$> compileNode c

def compileNodes : List Ast → Except PyErr (List τ)
  | [] => .ok []
  | c :: cs => do
      let x ← compileNode c
      let xs ← compileNodes cs
      .ok (x :: xs)

end

end Walk

/-! ## Recording what was emitted -/

/-- A compiled subtree with the paths its leaves added to `consumed`, one for each
leaf that was emitted. -/
structure Emitted (τ : Type) where
  predicate : τ
  consumed : List String

/-- The walk with its `consumed` accumulator. -/
def Target.recording {τ : Type} (T : Target τ) : Target (Emitted τ) where
  matchAll := ⟨T.matchAll, []⟩
  matchNone := ⟨T.matchNone, []⟩
  all := fun l => ⟨T.all (l.map Emitted.predicate), l.flatMap Emitted.consumed⟩
  any := fun l => ⟨T.any (l.map Emitted.predicate), l.flatMap Emitted.consumed⟩
  neg := fun x => ⟨T.neg x.predicate, x.consumed⟩

/-- A leaf that compiles: its path is recorded. -/
def FilterClause.emit {τ : Type} (c : FilterClause) (x : τ) : Emitted τ := ⟨x, [c.pathStr]⟩

/-- `_Builder._unsupported`: raise, or the placeholder. -/
def Target.unsupported {τ : Type} (T : Target τ) (ctx : CompileContext) (c : FilterClause)
    (reason : String) : Except PyErr (Emitted τ) :=
  if ctx.onUnsupported = .raise then .error (.unsupported c.pathStr reason)
  else .ok ⟨T.matchAll, []⟩

/-- A leaf that compiles to a predicate or to `none`: recorded, or unsupported. -/
def Target.emitOption {τ : Type} (T : Target τ) (ctx : CompileContext) (c : FilterClause)
    (reason : String) (compiled : Except PyErr (Option τ)) : Except PyErr (Emitted τ) := do
  match ← compiled with
  | some e => .ok (c.emit e)
  | none => T.unsupported ctx c reason

/-- The predicate of a compile pass and its `consumed_keys`. -/
structure CompiledFilter (τ : Type) where
  predicate : τ
  consumedKeys : List String

/-- A whole compile pass: a path is reported consumed only when no occurrence of it was
deferred. -/
def compileFilter {τ : Type} (T : Target τ) (ctx : CompileContext) (ok : FilterClause → Bool)
    (clause : FilterClause → Except PyErr (Emitted τ)) (t : Ast) :
    Except PyErr (CompiledFilter τ) := do
  let e ← compileNode T.recording ctx.isSplit ok clause t
  let deferred := if ctx.isSplit then deferredPaths ok t else []
  .ok ⟨e.predicate, e.consumed.filter fun p => !deferred.contains p⟩

/-- A compile pass in split mode, from what the walk returned. -/
theorem compileFilter_eq {τ : Type} {T : Target τ} {ctx : CompileContext} {ok : FilterClause → Bool}
    {clause : FilterClause → Except PyErr (Emitted τ)} {t : Ast} {e : Emitted τ}
    (hsplit : ctx.onUnsupported = .split)
    (he : compileNode T.recording true ok clause t = .ok e) :
    compileFilter T ctx ok clause t =
      .ok ⟨e.predicate, e.consumed.filter fun p => !(deferredPaths ok t).contains p⟩ := by
  have hs : ctx.isSplit = true := by simp [CompileContext.isSplit, hsplit]
  rw [compileFilter, hs, he]
  rfl

/-! ## The gate -/

section GateLemmas

variable {ok : FilterClause → Bool}

attribute [local simp] nodeConsumable nodesConsumable prune pruneAll

theorem nodesConsumable_eq (cs : List Ast) : nodesConsumable ok cs = cs.all (nodeConsumable ok) := by
  induction cs with
  | nil => rfl
  | cons c cs ih => simp [nodesConsumable, ih]

theorem nodeConsumable_node (op : Op) (cs : List Ast) :
    nodeConsumable ok (.node op cs) = cs.all (nodeConsumable ok) :=
  nodesConsumable_eq cs

/-- A subtree is consumable exactly when its leaves are. -/
theorem nodeConsumable_iff (t : Ast) :
    nodeConsumable ok t = true ↔ ∀ c ∈ t.leaves, ok c = true := by
  induction t using Ast.induct with
  | clause c => simp [nodeConsumable]
  | node op cs ih =>
      rw [nodeConsumable_node, List.all_eq_true, Ast.leaves_node]
      constructor
      · intro h c hc
        obtain ⟨t, ht, hct⟩ := List.mem_flatMap.mp hc
        exact (ih t ht).mp (h t ht) c hct
      · intro h t ht
        exact (ih t ht).mpr fun c hc => h c (List.mem_flatMap.mpr ⟨t, ht, hc⟩)

theorem pruneAll_eq (cs : List Ast) : pruneAll ok cs = cs.filterMap (prune ok) := by
  induction cs with
  | nil => rfl
  | cons c cs ih => cases h : prune ok c <;> simp [pruneAll, h, ih]

theorem prune_and (cs : List Ast) :
    prune ok (.node .and cs) = some (.node .and (cs.filterMap (prune ok))) := by
  rw [prune, pruneAll_eq]

theorem prune_or (cs : List Ast) : prune ok (.node .or cs) =
    if nodeConsumable ok (.node .or cs) then some (.node .or cs) else none := by
  rw [prune]
  simp

theorem prune_not (cs : List Ast) : prune ok (.node .not cs) =
    if nodeConsumable ok (.node .not cs) then some (.node .not cs) else none := by
  rw [prune]
  simp

theorem wellFormed_of_prune {t : Ast} (h : t.wellFormed = true) :
    ∀ p, prune ok t = some p → p.wellFormed = true := by
  refine Ast.induct_wellFormed (fun c p hp => ?_) (fun cs _ ih p hp => ?_)
    (fun cs hcs _ p hp => ?_) (fun c hc _ p hp => ?_) t h
  · simp only [prune] at hp
    split at hp <;> cases hp
    rfl
  · rw [prune_and] at hp
    cases hp
    refine Ast.wellFormed_and.mpr fun q hq => ?_
    obtain ⟨c, hc, hcq⟩ := List.mem_filterMap.mp hq
    exact ih c hc q hcq
  · rw [prune_or] at hp
    split at hp <;> cases hp
    exact Ast.wellFormed_or.mpr hcs
  · rw [prune_not] at hp
    split at hp <;> cases hp
    exact Ast.wellFormed_not.mpr ⟨c, rfl, hc⟩

/-- The truth value of a pruned subtree; a subtree deferred whole matches all. -/
def evalPruned (v : FilterClause → Bool) : Option Ast → Bool
  | none => true
  | some p => p.eval v

variable (v : FilterClause → Bool)

theorem eval_consumedSubtree {t : Ast} (h : t.wellFormed = true) :
    (consumedSubtree ok t).eval v = evalPruned v (prune ok t) := by
  unfold consumedSubtree
  cases hp : prune ok t with
  | none => simp [evalPruned]
  | some p =>
      have hw := wellFormed_of_prune h p hp
      cases p with
      | clause c =>
          rw [Ast.eval_normalize v _ (Ast.wellFormed_and.mpr (by simpa using hw))]
          simp [evalPruned]
      | node op cs => exact Ast.eval_normalize v _ hw

theorem all_filterMap_prune (cs : List Ast) :
    (cs.filterMap (prune ok)).all (Ast.eval v) = cs.all fun c => evalPruned v (prune ok c) := by
  induction cs with
  | nil => rfl
  | cons c cs ih => cases h : prune ok c <;> simp [h, ih, evalPruned]

/-- What reaches the backend keeps every row the tree keeps. -/
theorem evalPruned_of_eval {t : Ast} (h : t.wellFormed = true) (ht : t.eval v = true) :
    evalPruned v (prune ok t) = true := by
  revert ht
  refine Ast.induct_wellFormed (fun c ht => ?_) (fun cs _ ih ht => ?_) (fun cs _ _ ht => ?_)
    (fun c _ _ ht => ?_) t h
  · simp only [prune]
    split
    · exact ht
    · rfl
  · rw [Ast.eval_and, List.all_eq_true] at ht
    rw [prune_and, evalPruned, Ast.eval_and, all_filterMap_prune, List.all_eq_true]
    exact fun c hc => ih c hc (ht c hc)
  · rw [prune_or]
    split
    · exact ht
    · rfl
  · rw [prune_not]
    split
    · exact ht
    · rfl

/-- Nothing is pruned from a consumable subtree. -/
theorem evalPruned_of_consumable {t : Ast} (h : t.wellFormed = true)
    (hok : nodeConsumable ok t = true) : evalPruned v (prune ok t) = t.eval v := by
  revert hok
  refine Ast.induct_wellFormed (fun c hok => ?_) (fun cs _ ih hok => ?_) (fun cs _ _ hok => ?_)
    (fun c _ _ hok => ?_) t h
  · have : ok c = true := hok
    simp [prune, this, evalPruned]
  · rw [nodeConsumable_node, List.all_eq_true] at hok
    rw [prune_and, evalPruned, Ast.eval_and, all_filterMap_prune, Ast.eval_and]
    exact Ast.all_congr_mem fun c hc => ih c hc (hok c hc)
  · rw [prune_or, if_pos hok]
    rfl
  · rw [prune_not, if_pos hok]
    rfl

end GateLemmas

/-! ## The walk -/

section WalkLemmas

open Fallible

variable {τ : Type} {T : Target τ} {split : Bool} {ok : FilterClause → Bool}
  {clause : FilterClause → Except PyErr τ}

theorem compileNodes_eq (cs : List Ast) :
    compileNodes T split ok clause cs = cs.mapM (compileNode T split ok clause) := by
  induction cs with
  | nil => rfl
  | cons c cs ih =>
      rw [compileNodes, List.mapM_cons, ih]
      rfl

/-- The emitted children stand for the children, in order. -/
theorem compileNodes_eq_ok {cs : List Ast} {xs : List τ} :
    compileNodes T split ok clause cs = .ok xs ↔
      List.Forall₂ (fun c x => compileNode T split ok clause c = .ok x) cs xs := by
  rw [compileNodes_eq, mapM_eq_ok]

/-- **The walk raises only where a leaf does.** -/
theorem returns_compileNode {t : Ast} (h : t.wellFormed = true)
    (hc : ∀ c ∈ t.leaves, Returns (clause c)) : Returns (compileNode T split ok clause t) := by
  revert hc
  have hmap : ∀ cs : List Ast,
      (∀ c ∈ cs, (∀ l ∈ c.leaves, Returns (clause l)) → Returns (compileNode T split ok clause c)) →
      (∀ l ∈ cs.flatMap Ast.leaves, Returns (clause l)) →
      Returns (compileNodes T split ok clause cs) := by
    intro cs ih hl
    rw [compileNodes_eq]
    exact returns_mapM fun c hc =>
      ih c hc fun l hlc => hl l (List.mem_flatMap.mpr ⟨c, hc, hlc⟩)
  refine Ast.induct_wellFormed (fun c hl => ?_) (fun cs _ ih hl => ?_) (fun cs _ ih hl => ?_)
    (fun c _ ih hl => ?_) t h
  · exact hl c (by simp)
  · rw [Ast.leaves_node] at hl
    cases cs with
    | nil => exact ⟨_, rfl⟩
    | cons c cs =>
        rw [compileNode, returns_map]
        exact hmap _ ih hl
  · rw [Ast.leaves_node] at hl
    cases cs with
    | nil => exact ⟨_, rfl⟩
    | cons c cs =>
        rw [compileNode]
        split
        · exact ⟨_, rfl⟩
        · rw [returns_map]
          exact hmap _ ih hl
  · rw [compileNode]
    · split
      · exact ⟨_, rfl⟩
      · rw [returns_map]
        exact ih (by simpa using hl)
    · simp
    · simp

/-- Truth values of the emitted children, from those of each child. -/
theorem forall₂_val {cs : List Ast} {xs : List τ} {val : τ → Bool} {w : Ast → Bool}
    (hxs : List.Forall₂ (fun c x => compileNode T split ok clause c = .ok x) cs xs)
    (h : ∀ c ∈ cs, ∀ x, compileNode T split ok clause c = .ok x → val x = w c) :
    xs.all val = cs.all w ∧ xs.any val = cs.any w := by
  induction hxs with
  | nil => exact ⟨rfl, rfl⟩
  | cons hx _ ih =>
      obtain ⟨hall, hany⟩ := ih fun c hc => h c (List.mem_cons_of_mem _ hc)
      have hhead := h _ List.mem_cons_self _ hx
      exact ⟨by simp [hhead, hall], by simp [hhead, hany]⟩

/-- **What the walk emits in split mode means the pruned tree.** -/
theorem val_compileNode {val : τ → Bool} (hT : T.Models val) {mem : FilterClause → Bool}
    (hleaf : ∀ c x, clause c = .ok x → val x = if ok c then mem c else true)
    {t : Ast} (h : t.wellFormed = true) :
    ∀ x, compileNode T true ok clause t = .ok x → val x = evalPruned mem (prune ok t) := by
  have hgate : ∀ t : Ast, (true && !nodeConsumable ok t) = true ↔ ¬ nodeConsumable ok t = true := by
    simp
  refine Ast.induct_wellFormed (fun c x hx => ?_) (fun cs _ ih x hx => ?_)
    (fun cs hcs ih x hx => ?_) (fun c hc ih x hx => ?_) t h
  · have hv := hleaf c x hx
    simp only [prune]
    split at hv <;> simp_all [evalPruned]
  · rw [prune_and, evalPruned, Ast.eval_and, all_filterMap_prune]
    cases cs with
    | nil =>
        cases hx
        exact hT.matchAll
    | cons c cs =>
        rw [compileNode, map_eq_ok] at hx
        obtain ⟨xs, hxs, rfl⟩ := hx
        have hxs := compileNodes_eq_ok.mp hxs
        have hne : xs ≠ [] := by
          rintro rfl
          cases hxs
        rw [hT.all xs hne]
        exact (forall₂_val hxs ih).1
  · rw [prune_or]
    cases cs with
    | nil =>
        cases hx
        exact hT.matchNone
    | cons c cs =>
        rw [compileNode] at hx
        split at hx
        · rename_i hg
          cases hx
          rw [if_neg ((hgate _).mp hg)]
          exact hT.matchAll
        · rename_i hg
          have hok : nodeConsumable ok (.node .or (c :: cs)) = true :=
            not_not.mp ((hgate _).not.mp hg)
          rw [if_pos hok, evalPruned, Ast.eval_or]
          rw [nodeConsumable_node, List.all_eq_true] at hok
          obtain ⟨xs, hxs, rfl⟩ := map_eq_ok.mp hx
          have hxs := compileNodes_eq_ok.mp hxs
          have hne : xs ≠ [] := by
            rintro rfl
            cases hxs
          rw [hT.any xs hne]
          exact (forall₂_val hxs fun d hd y hy =>
            (ih d hd y hy).trans (evalPruned_of_consumable mem (hcs d hd) (hok d hd))).2
  · rw [prune_not]
    rw [compileNode] at hx
    · split at hx
      · rename_i hg
        cases hx
        rw [if_neg ((hgate _).mp hg)]
        exact hT.matchAll
      · rename_i hg
        have hok : nodeConsumable ok (.node .not [c]) = true := not_not.mp ((hgate _).not.mp hg)
        rw [if_pos hok, evalPruned, Ast.eval_not]
        rw [nodeConsumable_node, List.all_eq_true] at hok
        obtain ⟨y, hy, rfl⟩ := map_eq_ok.mp hx
        rw [hT.neg, ih y hy, evalPruned_of_consumable mem hc (hok c (by simp))]
    · simp
    · simp

end WalkLemmas

/-! ## Soundness of the pushdown -/

section Sound

variable {τ : Type} {T : Target τ} {val : τ → Bool}

/-- **Split-mode pushdown is sound.**  Whatever the leaves, if every leaf the gate
accepts is emitted with its in-memory truth value and every other leaf with the
placeholder, the walk returns a term that keeps every row the filter keeps, is
implied by the filter, and has the truth value of the consumed subtree. -/
theorem pushdown_sound (hT : T.Models val) (ok mem : FilterClause → Bool) (leaf : FilterClause → τ)
    (hleaf : ∀ c, ok c = true → val (leaf c) = mem c)
    (hplaceholder : ∀ c, ok c = false → leaf c = T.matchAll)
    (t : Ast) (h : t.wellFormed = true) :
    ∃ x, compileNode T true ok (fun c => .ok (leaf c)) t = .ok x ∧
      (t.eval mem = true → val x = true) ∧
      (val x && t.eval mem) = t.eval mem ∧
      val x = (consumedSubtree ok t).eval mem := by
  obtain ⟨x, hx⟩ : Fallible.Returns (compileNode T true ok (fun c => .ok (leaf c)) t) :=
    returns_compileNode h fun c _ => Fallible.returns_ok (leaf c)
  have hval : val x = evalPruned mem (prune ok t) := by
    refine val_compileNode hT (fun c y hy => ?_) h x hx
    cases hy
    cases hok : ok c with
    | true => exact hleaf c hok
    | false => rw [hplaceholder c hok]; exact hT.matchAll
  have hkeep : t.eval mem = true → val x = true := fun ht =>
    hval.trans (evalPruned_of_eval mem h ht)
  refine ⟨x, hx, hkeep, ?_, hval.trans (eval_consumedSubtree mem h).symm⟩
  cases ht : t.eval mem with
  | true => rw [hkeep ht]; rfl
  | false => exact Bool.and_false _

/-- Booleans as a target. -/
def boolTarget : Target Bool where
  matchAll := true
  matchNone := false
  all := fun l => l.all id
  any := fun l => l.any id
  neg := not

theorem boolTarget_models : boolTarget.Models id where
  matchAll := rfl
  matchNone := rfl
  all := fun _ _ => rfl
  any := fun _ _ => rfl
  neg := fun _ => rfl

/-- One pushable leaf beside a `$not` over a leaf the gate rejects. -/
def mixedTree : Ast :=
  .node .and [.clause ⟨["title"], .eq, .str "a"⟩,
    .node .not [.clause ⟨["metadata", "k"], .eq, .int 1⟩]]

theorem pushdown_sound_mixedTree :
    ∃ x, compileNode boolTarget true (fun c => c.systemKey?.isSome)
        (fun c => .ok (!c.systemKey?.isSome)) mixedTree = .ok x ∧
      (mixedTree.eval (fun _ => false) = true → x = true) ∧
      (x && mixedTree.eval (fun _ => false)) = mixedTree.eval (fun _ => false) ∧
      x = (consumedSubtree (fun c => c.systemKey?.isSome) mixedTree).eval (fun _ => false) :=
  pushdown_sound boolTarget_models (fun c => c.systemKey?.isSome) (fun _ => false)
    (fun c => !c.systemKey?.isSome) (fun c h => by simp [h]) (fun c h => by simp [h, boolTarget])
    mixedTree (by decide)

end Sound

end Khora
