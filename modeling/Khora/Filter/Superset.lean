import Khora.Filter.Python
import Khora.Lib.Ternary

/-!
# Pushed leaves and their polarity

What the split-mode walk hands to a backend, leaf by leaf, with the polarity each
leaf stands in.  A condition over SQL's three truth values keeps every row the
in-memory filter keeps as soon as each pushed leaf does so in its own polarity: a
leaf under an even number of negations must be true where the filter's leaf is
true, one under an odd number false where it is false.

* `predicate_eq_evalE` — the compiled predicate is the tree over its leaves' values.
* `meets_compileNode` — the polarity rule.
* `compileNode_good` — the walk returns, and keeps what its connectives keep.
-/

namespace Khora

open Fallible Ternary

/-! ## The in-memory filter as a function of its leaves -/

section EvalE

variable (v : FilterClause → Except PyErr Bool)

mutual

/-- The value of a tree over leaves that may raise, evaluated left to right. -/
def Ast.evalE : Ast → Except PyErr Bool
  | .clause c => v c
  | .node .and cs => Ast.evalAllE cs
  | .node .or cs => Ast.evalAnyE cs
  | .node _ [] => .error .indexError
  | .node _ (c :: _) => notE c.evalE

def Ast.evalAllE : List Ast → Except PyErr Bool
  | [] => .ok true
  | c :: cs => do
      if ← c.evalE then Ast.evalAllE cs else .ok false

def Ast.evalAnyE : List Ast → Except PyErr Bool
  | [] => .ok false
  | c :: cs => do
      if ← c.evalE then .ok true else Ast.evalAnyE cs

end

variable {v}

theorem Ast.evalAllE_eq (cs : List Ast) : Ast.evalAllE v cs = cs.allM (Ast.evalE v) := by
  induction cs with
  | nil => rfl
  | cons c cs ih =>
      rw [Ast.evalAllE, ih, List.allM]
      cases c.evalE v with
      | error e => rfl
      | ok b => cases b <;> rfl

theorem Ast.evalAnyE_eq (cs : List Ast) : Ast.evalAnyE v cs = cs.anyM (Ast.evalE v) := by
  induction cs with
  | nil => rfl
  | cons c cs ih =>
      rw [Ast.evalAnyE, ih, List.anyM]
      cases c.evalE v with
      | error e => rfl
      | ok b => cases b <;> rfl

theorem Ast.evalE_and (cs : List Ast) : (Ast.node .and cs).evalE v = cs.allM (Ast.evalE v) := by
  rw [Ast.evalE, Ast.evalAllE_eq]

theorem Ast.evalE_or (cs : List Ast) : (Ast.node .or cs).evalE v = cs.anyM (Ast.evalE v) := by
  rw [Ast.evalE, Ast.evalAnyE_eq]

theorem Ast.evalE_not (c : Ast) : (Ast.node .not [c]).evalE v = notE (c.evalE v) := by
  rw [Ast.evalE]
  · simp
  · simp

/-- On leaves that return, the tree is the usual one. -/
theorem Ast.evalE_total {w : FilterClause → Bool} {t : Ast} (h : t.wellFormed = true)
    (hv : ∀ c ∈ t.leaves, v c = .ok (w c)) : t.evalE v = .ok (t.eval w) := by
  revert hv
  refine Ast.induct_wellFormed (fun c hv => ?_) (fun cs _ ih hv => ?_) (fun cs _ ih hv => ?_)
    (fun c _ ih hv => ?_) t h
  · exact hv c (by simp)
  · rw [Ast.evalE_and, Ast.eval_and]
    refine allM_total fun c hc => ih c hc fun l hl => hv l ?_
    rw [Ast.leaves_node]
    exact List.mem_flatMap.mpr ⟨c, hc, hl⟩
  · rw [Ast.evalE_or, Ast.eval_or]
    refine anyM_total fun c hc => ih c hc fun l hl => hv l ?_
    rw [Ast.leaves_node]
    exact List.mem_flatMap.mpr ⟨c, hc, hl⟩
  · rw [Ast.evalE_not, Ast.eval_not, ih (by simpa using hv)]
    rfl

/-- A tree reads nothing but its leaves. -/
theorem Ast.evalE_congr {v' : FilterClause → Except PyErr Bool} {t : Ast} (h : t.wellFormed = true)
    (hv : ∀ c ∈ t.leaves, v c = v' c) : t.evalE v = t.evalE v' := by
  revert hv
  have hall : ∀ cs : List Ast, (∀ c ∈ cs, c.evalE v = c.evalE v') →
      cs.allM (Ast.evalE v) = cs.allM (Ast.evalE v') ∧ cs.anyM (Ast.evalE v) = cs.anyM (Ast.evalE v') := by
    intro cs ih
    induction cs with
    | nil => exact ⟨rfl, rfl⟩
    | cons c cs ihs =>
        obtain ⟨hall, hany⟩ := ihs fun d hd => ih d (List.mem_cons_of_mem _ hd)
        rw [List.allM, List.allM, List.anyM, List.anyM, ih c List.mem_cons_self, hall, hany]
        exact ⟨rfl, rfl⟩
  refine Ast.induct_wellFormed (fun c hv => ?_) (fun cs _ ih hv => ?_) (fun cs _ ih hv => ?_)
    (fun c _ ih hv => ?_) t h
  · exact hv c (by simp)
  · rw [Ast.evalE_and, Ast.evalE_and]
    refine (hall cs fun c hc => ih c hc fun l hl => hv l ?_).1
    rw [Ast.leaves_node]
    exact List.mem_flatMap.mpr ⟨c, hc, hl⟩
  · rw [Ast.evalE_or, Ast.evalE_or]
    refine (hall cs fun c hc => ih c hc fun l hl => hv l ?_).2
    rw [Ast.leaves_node]
    exact List.mem_flatMap.mpr ⟨c, hc, hl⟩
  · rw [Ast.evalE_not, Ast.evalE_not, ih (by simpa using hv)]

end EvalE

section Compiled

variable (ctx : CompileContext) (r : Record)

/-- The value of a leaf on a record. -/
def clauseValue (c : FilterClause) : Except PyErr Bool := do
  let q ← compilePythonClause ctx c
  q r

variable {ctx}

theorem compilePythonNodes_value {cs : List Ast} {ps : List Predicate}
    (ih : ∀ c ∈ cs, ∀ p, compilePythonNode ctx c = .ok p → p r = c.evalE (clauseValue ctx r))
    (h : compilePythonNodes ctx cs = .ok ps) :
    List.Forall₂ (fun c p => p r = Ast.evalE (clauseValue ctx r) c) cs ps := by
  induction cs generalizing ps with
  | nil =>
      cases h
      exact .nil
  | cons c cs ihs =>
      rw [compilePythonNodes] at h
      obtain ⟨p, hp, h⟩ := bind_eq_ok.mp h
      obtain ⟨qs, hqs, h⟩ := bind_eq_ok.mp h
      cases h
      exact .cons (ih c (by simp) p hp) (ihs (fun d hd => ih d (by simp [hd])) hqs)

theorem allM_forall₂ {cs : List Ast} {ps : List Predicate} {v : FilterClause → Except PyErr Bool}
    (h : List.Forall₂ (fun c p => p r = Ast.evalE v c) cs ps) :
    (ps.allM fun p => p r) = cs.allM (Ast.evalE v) ∧
      (ps.anyM fun p => p r) = cs.anyM (Ast.evalE v) := by
  induction h with
  | nil => exact ⟨rfl, rfl⟩
  | cons hp _ ih => exact ⟨by rw [List.allM, List.allM, hp, ih.1], by rw [List.anyM, List.anyM, hp, ih.2]⟩

/-- **The compiled predicate is the tree over the values of its leaves.** -/
theorem predicate_eq_evalE {t : Ast} (hw : t.wellFormed = true) :
    ∀ p, compilePythonNode ctx t = .ok p → p r = t.evalE (clauseValue ctx r) := by
  refine Ast.induct_wellFormed (fun c p hp => ?_) (fun cs _ ih p hp => ?_) (fun cs _ ih p hp => ?_)
    (fun c _ ih p hp => ?_) t hw
  · show p r = clauseValue ctx r c
    rw [clauseValue, show compilePythonClause ctx c = .ok p from hp]
    rfl
  · rw [compilePythonNode] at hp
    obtain ⟨ps, hps, hp⟩ := bind_eq_ok.mp hp
    cases hp
    rw [Ast.evalE_and]
    exact (allM_forall₂ r (compilePythonNodes_value r ih hps)).1
  · rw [compilePythonNode] at hp
    obtain ⟨ps, hps, hp⟩ := bind_eq_ok.mp hp
    cases hp
    rw [Ast.evalE_or]
    exact (allM_forall₂ r (compilePythonNodes_value r ih hps)).2
  · rw [compilePythonNode] at hp
    · obtain ⟨q, hq, hp⟩ := bind_eq_ok.mp hp
      cases hp
      rw [Ast.evalE_not, ← ih q hq]
    · simp
    · simp

variable {r} {r' : Record}

theorem compileMetadataPath_record_congr {segs : List String} {op : Op} {operand : Value} {q : Predicate}
    (hdig : mdExtract segs r = mdExtract segs r') (hq : compileMetadataPath segs op operand = .ok q) :
    q r = q r' := by
  have heq : ∀ v : Value, mdEqFn segs v r = mdEqFn segs v r' := by
    intro v
    cases v <;> simp only [mdEqFn, hdig]
  have hrange : ∀ (c : Value.Cmp) (v : Value), mdRangeFn segs c v r = mdRangeFn segs c v r' := by
    intro c v
    cases v <;> simp only [mdRangeFn, hdig]
  unfold compileMetadataPath at hq
  split at hq
  · cases hq
    simp only [hdig]
  · split at hq
    · cases hq
      rfl
    · obtain ⟨values, -, hq⟩ := bind_eq_ok.mp hq
      cases hq
      simp only [hdig]
  · split at hq
    · cases hq
      rfl
    · obtain ⟨values, -, hq⟩ := bind_eq_ok.mp hq
      cases hq
      simp only [hdig]
  · split at hq
    · cases hq
      simp only [hdig]
    · cases hq
      exact heq operand
  · split at hq
    · cases hq
      simp only [hdig]
    · cases hq
      simp only [heq]
  · split at hq
    · cases hq
      exact hrange _ operand
    · cases hq

/-- A leaf reads its own system key or the metadata. -/
theorem clauseValue_record_congr {c : FilterClause}
    (hsystem : ∀ key, c.systemKey? = some key → resolveSystem ctx r key = resolveSystem ctx r' key)
    (hmeta : resolveMetadata r = resolveMetadata r') : clauseValue ctx r c = clauseValue ctx r' c := by
  have hdig : ∀ segs, mdExtract segs r = mdExtract segs r' := by
    intro segs
    rw [mdExtract, mdExtract, hmeta]
  unfold clauseValue
  cases hc : compilePythonClause ctx c with
  | error e => rfl
  | ok q =>
      show q r = q r'
      unfold compilePythonClause at hc
      cases hkey : c.systemKey? with
      | some key =>
          rw [hkey] at hc
          have hvalue := hsystem key hkey
          simp only [compileSystemClause] at hc
          split at hc
          · cases hc
            rfl
          · obtain ⟨values, -, hc⟩ := bind_eq_ok.mp hc
            cases hc
            simp only [hvalue]
          · obtain ⟨values, -, hc⟩ := bind_eq_ok.mp hc
            cases hc
            simp only [hvalue]
          · repeat' split at hc
            all_goals
              cases hc
              try simp only [hvalue]
      | none =>
          rw [hkey] at hc
          have hplaceholder : ∀ reason, pythonUnsupported ctx c reason = .ok q → q r = q r' := by
            intro reason hun
            unfold pythonUnsupported at hun
            split at hun
            · cases hun
              rfl
            · cases hun
          cases hpath : c.metadataPath? with
          | none =>
              rw [hpath] at hc
              exact hplaceholder _ hc
          | some segs =>
              rw [hpath] at hc
              simp only [compileMetadataClause] at hc
              split at hc
              · split at hc
                · cases hc
                  simp only [hmeta]
                · exact hplaceholder _ hc
              · exact compileMetadataPath_record_congr (hdig segs) hc

/-- The predicate of a tree reads the keys of its leaves and the metadata. -/
theorem predicate_record_congr {t : Ast} (hw : t.wellFormed = true) {p : Predicate}
    (hp : compilePythonNode ctx t = .ok p)
    (hsystem : ∀ c ∈ t.leaves, ∀ key, c.systemKey? = some key →
      resolveSystem ctx r key = resolveSystem ctx r' key)
    (hmeta : resolveMetadata r = resolveMetadata r') : p r = p r' := by
  rw [predicate_eq_evalE r hw p hp, predicate_eq_evalE r' hw p hp]
  exact Ast.evalE_congr hw fun c hc => clauseValue_record_congr (hsystem c hc) hmeta

end Compiled

/-! ## Pushed leaves -/

section Pushed

variable (ok : FilterClause → Bool)

mutual

/-- The leaves the walk compiles, each with the polarity it stands in. -/
def pushedLeaves : Bool → Ast → List (Bool × FilterClause)
  | pol, .clause c => [(pol, c)]
  | pol, .node .and cs => pushedLeavesAll pol cs
  | pol, .node .or cs =>
      if nodeConsumable ok (.node .or cs) then pushedLeavesAll pol cs else []
  | pol, .node op cs =>
      if nodeConsumable ok (.node op cs) then pushedLeavesAll (!pol) cs else []

def pushedLeavesAll : Bool → List Ast → List (Bool × FilterClause)
  | _, [] => []
  | pol, c :: cs => pushedLeaves pol c ++ pushedLeavesAll pol cs

end

variable {ok}

theorem pushedLeavesAll_eq (pol : Bool) (cs : List Ast) :
    pushedLeavesAll ok pol cs = cs.flatMap (pushedLeaves ok pol) := by
  induction cs with
  | nil => rfl
  | cons c cs ih => rw [pushedLeavesAll, ih, List.flatMap_cons]

theorem mem_pushedLeavesAll {pol : Bool} {cs : List Ast} {c : Ast} (hc : c ∈ cs)
    {pc : Bool × FilterClause} (h : pc ∈ pushedLeaves ok pol c) : pc ∈ pushedLeavesAll ok pol cs := by
  rw [pushedLeavesAll_eq]
  exact List.mem_flatMap.mpr ⟨c, hc, h⟩

theorem pushedLeaves_not (pol : Bool) (c : Ast) : pushedLeaves ok pol (.node .not [c]) =
    if nodeConsumable ok (.node .not [c]) then pushedLeaves ok (!pol) c else [] := by
  rw [pushedLeaves, pushedLeavesAll_eq]
  · simp
  · simp
  · simp

/-- Only leaves of the tree are pushed. -/
theorem mem_leaves_of_pushed {t : Ast} (hw : t.wellFormed = true) :
    ∀ pol, ∀ pc ∈ pushedLeaves ok pol t, pc.2 ∈ t.leaves := by
  have hall : ∀ (cs : List Ast) (pol : Bool),
      (∀ c ∈ cs, ∀ pol, ∀ pc ∈ pushedLeaves ok pol c, pc.2 ∈ c.leaves) →
      ∀ pc ∈ pushedLeavesAll ok pol cs, pc.2 ∈ cs.flatMap Ast.leaves := by
    intro cs pol ih pc hpc
    rw [pushedLeavesAll_eq] at hpc
    obtain ⟨c, hc, hpc⟩ := List.mem_flatMap.mp hpc
    exact List.mem_flatMap.mpr ⟨c, hc, ih c hc pol pc hpc⟩
  refine Ast.induct_wellFormed (fun c pol pc hpc => ?_) (fun cs _ ih pol pc hpc => ?_)
    (fun cs _ ih pol pc hpc => ?_) (fun c _ ih pol pc hpc => ?_) t hw
  · rw [pushedLeaves, List.mem_singleton] at hpc
    simp [hpc]
  · rw [pushedLeaves] at hpc
    rw [Ast.leaves_node]
    exact hall cs pol ih pc hpc
  · rw [pushedLeaves] at hpc
    rw [Ast.leaves_node]
    split at hpc
    · exact hall cs pol ih pc hpc
    · simp at hpc
  · rw [pushedLeaves_not] at hpc
    split at hpc
    · simpa using ih _ pc hpc
    · simp at hpc

/-- A condition meets the filter in a polarity: it agrees wherever the filter has that value. -/
def Meets (pol : Bool) (py : Except PyErr Bool) (sql : Truth) : Prop := py = .ok pol → sql = some pol

end Pushed

/-- A truth value for target terms that reads the connectives as SQL does. -/
structure Target.Models3 {τ : Type} (T : Target τ) (val : τ → Truth) : Prop where
  matchAll : val T.matchAll = some true
  matchNone : val T.matchNone = some false
  all : ∀ l, val (T.all l) = Ternary.all (l.map val)
  any : ∀ l, val (T.any l) = Ternary.any (l.map val)
  neg : ∀ x, val (T.neg x) = Ternary.neg (val x)

theorem Target.Models3.recording {τ : Type} {T : Target τ} {val : τ → Truth} (h : T.Models3 val) :
    T.recording.Models3 fun e => val e.predicate where
  matchAll := h.matchAll
  matchNone := h.matchNone
  all := fun _ => (h.all _).trans (congrArg Ternary.all (List.map_map ..))
  any := fun _ => (h.any _).trans (congrArg Ternary.any (List.map_map ..))
  neg := fun x => h.neg x.predicate

section Rule

variable {τ : Type} {T : Target τ} {ok : FilterClause → Bool}
  {clause : FilterClause → Except PyErr τ}

/-- Closed under the connectives of a target. -/
structure Target.Closed (T : Target τ) (good : τ → Prop) : Prop where
  matchAll : good T.matchAll
  matchNone : good T.matchNone
  all : ∀ l, (∀ x ∈ l, good x) → good (T.all l)
  any : ∀ l, (∀ x ∈ l, good x) → good (T.any l)
  neg : ∀ x, good x → good (T.neg x)

theorem Target.Closed.recording {good : τ → Prop} (h : T.Closed good) :
    T.recording.Closed fun e => good e.predicate where
  matchAll := h.matchAll
  matchNone := h.matchNone
  all := fun l hl => h.all _ (by simpa using hl)
  any := fun l hl => h.any _ (by simpa using hl)
  neg := fun x => h.neg x.predicate

theorem compileNodes_good {good : τ → Prop} {cs : List Ast}
    (ih : ∀ c ∈ cs, ∃ x, compileNode T true ok clause c = .ok x ∧ good x) :
    ∃ xs, compileNodes T true ok clause cs = .ok xs ∧ ∀ x ∈ xs, good x := by
  induction cs with
  | nil => exact ⟨[], rfl, by simp⟩
  | cons c cs ihs =>
      obtain ⟨x, hx, hgood⟩ := ih c (by simp)
      obtain ⟨xs, hxs, hgoods⟩ := ihs fun d hd => ih d (by simp [hd])
      refine ⟨x :: xs, ?_, List.forall_mem_cons.mpr ⟨hgood, hgoods⟩⟩
      rw [compileNodes, hx, hxs]
      rfl

/-- The walk returns when the pushed leaves do, and its result is good when theirs are. -/
theorem compileNode_good {good : τ → Prop} (hT : T.Closed good) {t : Ast}
    (hw : t.wellFormed = true) : ∀ pol,
      (∀ pc ∈ pushedLeaves ok pol t, ∃ y, clause pc.2 = .ok y ∧ good y) →
      ∃ x, compileNode T true ok clause t = .ok x ∧ good x := by
  refine Ast.induct_wellFormed (fun c pol h => ?_) (fun cs _ ih pol h => ?_) (fun cs _ ih pol h => ?_)
    (fun c _ ih pol h => ?_) t hw
  · exact h (pol, c) (by simp [pushedLeaves])
  · rw [pushedLeaves] at h
    cases cs with
    | nil => exact ⟨_, rfl, hT.matchAll⟩
    | cons c cs =>
        obtain ⟨xs, hxs, hg⟩ := compileNodes_good fun d hd =>
          ih d hd pol fun pc hpc => h pc (mem_pushedLeavesAll hd hpc)
        exact ⟨T.all xs, by rw [compileNode, hxs]; rfl, hT.all xs hg⟩
  · rw [pushedLeaves] at h
    cases cs with
    | nil => exact ⟨_, rfl, hT.matchNone⟩
    | cons c cs =>
        rw [compileNode]
        by_cases hok : nodeConsumable ok (.node .or (c :: cs)) = true
        · rw [if_pos hok] at h
          obtain ⟨xs, hxs, hg⟩ := compileNodes_good fun d hd =>
            ih d hd pol fun pc hpc => h pc (mem_pushedLeavesAll hd hpc)
          exact ⟨T.any xs, by rw [if_neg (by simp [hok]), hxs]; rfl, hT.any xs hg⟩
        · exact ⟨T.matchAll, by rw [if_pos (by simpa using hok)], hT.matchAll⟩
  · rw [pushedLeaves_not] at h
    rw [compileNode]
    · by_cases hok : nodeConsumable ok (.node .not [c]) = true
      · rw [if_pos hok] at h
        obtain ⟨x, hx, hg⟩ := ih (!pol) h
        exact ⟨T.neg x, by rw [if_neg (by simp [hok]), hx]; rfl, hT.neg x hg⟩
      · exact ⟨T.matchAll, by rw [if_pos (by simpa using hok)], hT.matchAll⟩
    · simp
    · simp

/-- A conjunction or disjunction meets the filter when its members do. -/
theorem meets_members {val : τ → Truth} {v : FilterClause → Except PyErr Bool} {pol : Bool}
    {cs : List Ast} {xs : List τ}
    (h : List.Forall₂ (fun c x => Meets pol (Ast.evalE v c) (val x)) cs xs) :
    Meets pol (cs.allM (Ast.evalE v)) (Ternary.all (xs.map val)) ∧
      Meets pol (cs.anyM (Ast.evalE v)) (Ternary.any (xs.map val)) := by
  induction h with
  | nil => exact ⟨fun h => by cases pol <;> simp_all [List.allM, pure, Except.pure],
      fun h => by cases pol <;> simp_all [List.anyM, pure, Except.pure]⟩
  | @cons c x cs xs hc _ ih =>
      cases hv : c.evalE v with
      | error e =>
          refine ⟨fun h => ?_, fun h => ?_⟩
          · rw [allM_cons_error hv] at h
            cases h
          · rw [anyM_cons_error hv] at h
            cases h
      | ok b =>
          have hx : b = pol → val x = some pol := fun hb => hc (by rw [hv, hb])
          cases b with
          | true =>
              refine ⟨fun h => ?_, fun h => ?_⟩
              · rw [allM_cons_ok_true hv] at h
                have htail := ih.1 h
                cases pol with
                | true => exact and_eq_true.mpr ⟨hx rfl, htail⟩
                | false => exact and_eq_false.mpr (.inr htail)
              · rw [anyM_cons_ok_true hv] at h
                cases h
                exact or_eq_true.mpr (.inl (hx rfl))
          | false =>
              refine ⟨fun h => ?_, fun h => ?_⟩
              · rw [allM_cons_ok_false hv] at h
                cases h
                exact and_eq_false.mpr (.inl (hx rfl))
              · rw [anyM_cons_ok_false hv] at h
                have htail := ih.2 h
                cases pol with
                | true => exact or_eq_true.mpr (.inr htail)
                | false => exact or_eq_false.mpr ⟨hx rfl, htail⟩

theorem forall₂_meets {val : τ → Truth} {v : FilterClause → Except PyErr Bool} {pol : Bool}
    {cs : List Ast} {xs : List τ}
    (hxs : List.Forall₂ (fun c x => compileNode T true ok clause c = .ok x) cs xs)
    (h : ∀ c ∈ cs, ∀ x, compileNode T true ok clause c = .ok x → Meets pol (c.evalE v) (val x)) :
    List.Forall₂ (fun c x => Meets pol (Ast.evalE v c) (val x)) cs xs := by
  induction hxs with
  | nil => exact .nil
  | cons hx _ ih => exact .cons (h _ (by simp) _ hx) (ih fun c hc => h c (by simp [hc]))

/-- **The polarity rule.**  What the walk emits meets the filter when every pushed leaf
does in its polarity; a leaf of negative polarity is one the gate accepts. -/
theorem meets_compileNode {val : τ → Truth} (hT : T.Models3 val)
    {v : FilterClause → Except PyErr Bool} {t : Ast} (hw : t.wellFormed = true) : ∀ pol,
      (pol = false → nodeConsumable ok t = true) →
      (∀ pc ∈ pushedLeaves ok pol t, (pc.1 = false → ok pc.2 = true) →
        ∀ y, clause pc.2 = .ok y → Meets pc.1 (v pc.2) (val y)) →
      ∀ x, compileNode T true ok clause t = .ok x → Meets pol (t.evalE v) (val x) := by
  refine Ast.induct_wellFormed (fun c pol hg h x hx => ?_) (fun cs _ ih pol hg h x hx => ?_)
    (fun cs _ ih pol hg h x hx => ?_) (fun c _ ih pol hg h x hx => ?_) t hw
  · exact h (pol, c) (by simp [pushedLeaves]) hg x hx
  · rw [pushedLeaves] at h
    rw [Ast.evalE_and]
    cases cs with
    | nil =>
        cases hx
        intro hp
        cases hp
        exact hT.matchAll
    | cons c cs =>
        rw [compileNode] at hx
        obtain ⟨xs, hxs, rfl⟩ := map_eq_ok.mp hx
        rw [hT.all]
        refine (meets_members (forall₂_meets (compileNodes_eq_ok.mp hxs) fun d hd y hy => ?_)).1
        refine ih d hd pol (fun hp => ?_) (fun pc hpc => h pc (mem_pushedLeavesAll hd hpc)) y hy
        have hall := hg hp
        rw [nodeConsumable_node, List.all_eq_true] at hall
        exact hall d hd
  · rw [pushedLeaves] at h
    rw [Ast.evalE_or]
    cases cs with
    | nil =>
        cases hx
        intro hp
        cases hp
        exact hT.matchNone
    | cons c cs =>
        rw [compileNode] at hx
        by_cases hok : nodeConsumable ok (.node .or (c :: cs)) = true
        · rw [if_pos hok] at h
          rw [if_neg (by simp [hok])] at hx
          obtain ⟨xs, hxs, rfl⟩ := map_eq_ok.mp hx
          rw [hT.any]
          rw [nodeConsumable_node, List.all_eq_true] at hok
          refine (meets_members (forall₂_meets (compileNodes_eq_ok.mp hxs) fun d hd y hy => ?_)).2
          exact ih d hd pol (fun _ => hok d hd) (fun pc hpc => h pc (mem_pushedLeavesAll hd hpc)) y hy
        · -- a deferred disjunction stands in positive polarity only
          rw [if_pos (by simpa using hok)] at hx
          cases hx
          intro _
          cases pol with
          | true => exact hT.matchAll
          | false => exact absurd (hg rfl) hok
  · rw [pushedLeaves_not] at h
    rw [compileNode] at hx
    · by_cases hok : nodeConsumable ok (.node .not [c]) = true
      · rw [if_pos hok] at h
        rw [if_neg (by simp [hok])] at hx
        obtain ⟨y, hy, rfl⟩ := map_eq_ok.mp hx
        rw [nodeConsumable_node, List.all_eq_true] at hok
        have hm := ih (!pol) (fun _ => hok c (by simp)) h y hy
        rw [Ast.evalE_not, hT.neg]
        intro hp
        rw [neg_eq_some]
        exact hm (notE_eq_ok.mp hp)
      · rw [if_pos (by simpa using hok)] at hx
        cases hx
        intro _
        cases pol with
        | true => exact hT.matchAll
        | false => exact absurd (hg rfl) hok
    · simp
    · simp

/-- The values of the children, from those of each child. -/
theorem compileNodes_exact {split : Bool} {val : τ → Truth} {good : τ → Prop} {cs : List Ast}
    {w : Ast → Bool}
    (ih : ∀ c ∈ cs, ∃ x, compileNode T split ok clause c = .ok x ∧ good x ∧ val x = some (w c)) :
    ∃ xs, compileNodes T split ok clause cs = .ok xs ∧ (∀ x ∈ xs, good x) ∧
      xs.map val = cs.map fun c => some (w c) := by
  induction cs with
  | nil => exact ⟨[], rfl, by simp, rfl⟩
  | cons c cs ihs =>
      obtain ⟨x, hx, hgood, hval⟩ := ih c (by simp)
      obtain ⟨xs, hxs, hgoods, hvals⟩ := ihs fun d hd => ih d (by simp [hd])
      refine ⟨x :: xs, ?_, List.forall_mem_cons.mpr ⟨hgood, hgoods⟩, ?_⟩
      · rw [compileNodes, hx, hxs]
        rfl
      · rw [List.map_cons, List.map_cons, hval, hvals]

/-- **The walk over a consumable tree is exact**: in either mode it returns, keeps what its
connectives keep, and its value is that of the tree over the values of the leaves. -/
theorem compileNode_exact {split : Bool} {val : τ → Truth} {good : τ → Prop} (hT : T.Models3 val)
    (hG : T.Closed good) {w : FilterClause → Bool} {t : Ast} (hw : t.wellFormed = true)
    (hok : nodeConsumable ok t = true)
    (hleaf : ∀ c ∈ t.leaves, ∃ y, clause c = .ok y ∧ good y ∧ val y = some (w c)) :
    ∃ x, compileNode T split ok clause t = .ok x ∧ good x ∧ val x = some (t.eval w) := by
  revert hok hleaf
  refine Ast.induct_wellFormed (fun c hok h => ?_) (fun cs _ ih hok h => ?_)
    (fun cs _ ih hok h => ?_) (fun c _ ih hok h => ?_) t hw
  · exact h c (by simp)
  · rw [nodeConsumable_node, List.all_eq_true] at hok
    rw [Ast.leaves_node] at h
    have hchild := fun d hd => ih d hd (hok d hd) fun l hl => h l (List.mem_flatMap.mpr ⟨d, hd, hl⟩)
    cases cs with
    | nil => exact ⟨_, rfl, hG.matchAll, by rw [hT.matchAll, Ast.eval_and]; rfl⟩
    | cons c cs =>
        obtain ⟨xs, hxs, hgood, hvals⟩ := compileNodes_exact hchild
        refine ⟨T.all xs, by rw [compileNode, hxs]; rfl, hG.all xs hgood, ?_⟩
        rw [hT.all, hvals, all_some, Ast.eval_and]
  · have hgate := hok
    rw [nodeConsumable_node, List.all_eq_true] at hok
    rw [Ast.leaves_node] at h
    have hchild := fun d hd => ih d hd (hok d hd) fun l hl => h l (List.mem_flatMap.mpr ⟨d, hd, hl⟩)
    cases cs with
    | nil => exact ⟨_, rfl, hG.matchNone, by rw [hT.matchNone, Ast.eval_or]; rfl⟩
    | cons c cs =>
        obtain ⟨xs, hxs, hgood, hvals⟩ := compileNodes_exact hchild
        refine ⟨T.any xs, ?_, hG.any xs hgood, ?_⟩
        · rw [compileNode, if_neg (by simp [hgate]), hxs]
          rfl
        · rw [hT.any, hvals, any_some, Ast.eval_or]
  · have hgate := hok
    rw [nodeConsumable_node, List.all_eq_true] at hok
    obtain ⟨x, hx, hgood, hval⟩ := ih (hok c (by simp)) (by simpa using h)
    refine ⟨T.neg x, ?_, hG.neg x hgood, ?_⟩
    · rw [compileNode, if_neg (by simp [hgate]), hx]
      · rfl
      · simp
      · simp
    · rw [hT.neg, hval, Ast.eval_not, neg_some]

end Rule

end Khora
