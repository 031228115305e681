import Khora.Filter.ChunkRow

/-!
# The Chronicle date window

`compile_chronicle` folds the conjunctive `source_timestamp` clauses of a filter into
one inclusive window; everything else is left to the post-filter.  The channel applies
the window to `COALESCE(source_timestamp, created_at)`, after the engine has
intersected it with the window of the caller.

* `consumed_clause_bounds` — a clause that is folded bounds the record it accepts.
* `chronicle_superset` — no record of the filter falls outside the window, nor outside
  its intersection with a caller window that holds the record.
* `compileChronicle_returns` — with aware operands the fold does not raise.
-/

namespace Khora

open Calendar (DateTime)
open Fallible

/-! ## The compiler -/

structure ChronicleDateBound where
  createdAfter : Option DateTime
  createdBefore : Option DateTime

/-- The bound with the keys that went into it. -/
structure CompiledBound where
  bound : ChronicleDateBound
  consumedKeys : List String

/-- `_PUSHDOWN_DATE_KEYS` -/
def pushdownDateKeys : List String := ["source_timestamp"]

def lowerOps : List Op := [.gt, .gte]

def upperOps : List Op := [.lt, .lte]

/-- `_as_datetime` -/
def asDatetime : Value → Option DateTime
  | .dateLiteral d => some d
  | .datetime d => some d
  | _ => none

/-- `_consumable_date_clause` -/
def consumableDateClause : Ast → Option (String × Op × DateTime)
  | .node _ _ => none
  | .clause c => match c.path with
      | [key] =>
          if key ∉ pushdownDateKeys then none
          else if c.op ≠ .eq ∧ c.op ∉ lowerOps ∧ c.op ∉ upperOps then none
          else (asDatetime c.operand).map fun d => (key, c.op, d)
      | _ => none

/-- Python's `max` (`.gt`) or `min` (`.lt`) of two date-times: the first, unless the
second goes beyond it. -/
def pyExtreme (c : Value.Cmp) (a b : DateTime) : Except PyErr DateTime := do
  .ok (if ← Value.cmpDatetime c b a then b else a)

/-- A bound that is at least as tight as the candidate; `none` is unbounded. -/
def tightenBound (c : Value.Cmp) (current : Option DateTime) (candidate : DateTime) :
    Except PyErr DateTime :=
  match current with
  | none => .ok candidate
  | some d => pyExtreme c d candidate

/-- `_max_lower` -/
def maxLower (current : Option DateTime) (candidate : DateTime) : Except PyErr DateTime :=
  tightenBound .gt current candidate

/-- `_min_upper` -/
def minUpper (current : Option DateTime) (candidate : DateTime) : Except PyErr DateTime :=
  tightenBound .lt current candidate

/-- `_representative_path`: a logical node is named by its operator. -/
def representativePath : Ast → String
  | .clause c => c.pathStr
  | .node op _ => op.text

/-- `_reject_if_raise` -/
def rejectIfRaise (ctx : CompileContext) (node : Ast) : Except PyErr Unit :=
  if ctx.onUnsupported = .raise then
    .error (.unsupported (representativePath node)
      ("Chronicle pushes down only conjunctive source_timestamp date bounds; " ++
        "this clause must be post-filtered"))
  else .ok ()

/-- The window after one more clause. -/
def tighten (b : ChronicleDateBound) (op : Op) (value : DateTime) :
    Except PyErr ChronicleDateBound :=
  if op = .eq then do
    let lower ← maxLower b.createdAfter value
    let upper ← minUpper b.createdBefore value
    .ok ⟨some lower, some upper⟩
  else if op ∈ lowerOps then do
    let lower ← maxLower b.createdAfter value
    .ok { b with createdAfter := some lower }
  else do
    let upper ← minUpper b.createdBefore value
    .ok { b with createdBefore := some upper }

/-- One child of the top-level conjunction in `_fold_top_level_dates`. -/
def foldDate (ctx : CompileContext) (acc : CompiledBound) (child : Ast) :
    Except PyErr CompiledBound :=
  match consumableDateClause child with
  | none => do
      rejectIfRaise ctx child
      .ok acc
  | some (key, op, value) => do
      let bound ← tighten acc.bound op value
      .ok ⟨bound, acc.consumedKeys.insert key⟩

/-- `compile_chronicle`, with `_fold_top_level_dates`. -/
def compileChronicle (ctx : CompileContext) : Ast → Except PyErr CompiledBound
  | .node .and children => children.foldlM (foldDate ctx) ⟨⟨none, none⟩, []⟩
  | ast => do
      rejectIfRaise ctx ast
      .ok ⟨⟨none, none⟩, []⟩

/-! ## The window -/

/-- `COALESCE(source_timestamp, created_at)` of a record, as the filter reads the two. -/
def windowTime (ctx : CompileContext) (r : Record) : Option DateTime :=
  match resolveSystem ctx r "source_timestamp" with
  | .datetime d => some d
  | _ => match resolveSystem ctx r "created_at" with
      | .datetime d => some d
      | _ => none

/-- A condition of the pgvector search on the time; a null time meets no bound. -/
def meetsBound (ok : DateTime → DateTime → Bool) (bound time : Option DateTime) : Bool :=
  match bound with
  | none => true
  | some b => time.any (ok b)

/-- `temporal_col >= created_after` -/
def meetsLower (createdAfter time : Option DateTime) : Bool :=
  meetsBound (fun lower w => decide (lower.instant ≤ w.instant)) createdAfter time

/-- `temporal_col <= created_before` -/
def meetsUpper (createdBefore time : Option DateTime) : Bool :=
  meetsBound (fun upper w => decide (w.instant ≤ upper.instant)) createdBefore time

/-- The temporal conditions of the pgvector search. -/
def inWindow (createdAfter createdBefore time : Option DateTime) : Bool :=
  meetsLower createdAfter time && meetsUpper createdBefore time

/-- A bound of the engine's window, intersected with the filter's. -/
def intersectBound (c : Value.Cmp) (window filterBound : Option DateTime) :
    Except PyErr (Option DateTime) :=
  match filterBound with
  | none => .ok window
  | some fb => do
      let fb ← toUtc fb
      match window with
      | none => .ok (some fb)
      | some w => some <$> pyExtreme c w fb

/-- `_intersect_lower` of the engine. -/
def intersectLower (window filterBound : Option DateTime) : Except PyErr (Option DateTime) :=
  intersectBound .gt window filterBound

/-- `_intersect_upper` of the engine. -/
def intersectUpper (window filterBound : Option DateTime) : Except PyErr (Option DateTime) :=
  intersectBound .lt window filterBound

/-! ## Tightening -/

/-- The extreme of two is one of the two. -/
theorem pyExtreme_cases {c : Value.Cmp} {a b m : DateTime} (h : pyExtreme c a b = .ok m) :
    m = a ∨ m = b := by
  obtain ⟨beyond, _, hm⟩ := bind_eq_ok.mp h
  cases beyond
  · exact Or.inl (Except.ok.inj hm).symm
  · exact Or.inr (Except.ok.inj hm).symm

theorem toUtc_instant {d u : DateTime} (h : toUtc d = .ok u) : u.instant = d.instant := by
  unfold toUtc at h
  split at h
  · rename_i u' hu
    cases h
    exact (DateTime.toUtc_eq_some_iff.mp hu).1.symm
  · cases h

section Bounds

variable {c : Value.Cmp} {ok : DateTime → DateTime → Bool} {time : Option DateTime}

theorem meetsBound_pyExtreme {a b m : DateTime} (h : pyExtreme c a b = .ok m)
    (ha : meetsBound ok (some a) time = true) (hb : meetsBound ok (some b) time = true) :
    meetsBound ok (some m) time = true := by
  rcases pyExtreme_cases h with rfl | rfl
  · exact ha
  · exact hb

theorem meetsBound_tightenBound {current : Option DateTime} {candidate m : DateTime}
    (h : tightenBound c current candidate = .ok m) (hcur : meetsBound ok current time = true)
    (hcand : meetsBound ok (some candidate) time = true) :
    meetsBound ok (some m) time = true := by
  cases current with
  | none =>
      cases h
      exact hcand
  | some d => exact meetsBound_pyExtreme h hcur hcand

/-- The intersection admits what both windows admit, if a bound admits the same in UTC. -/
theorem meetsBound_intersectBound (hok : ∀ d u, toUtc d = .ok u → ok u = ok d)
    {window filterBound bound : Option DateTime}
    (h : intersectBound c window filterBound = .ok bound)
    (hw : meetsBound ok window time = true) (hfb : meetsBound ok filterBound time = true) :
    meetsBound ok bound time = true := by
  cases filterBound with
  | none =>
      cases h
      exact hw
  | some fb =>
      obtain ⟨u, hu, h⟩ := bind_eq_ok.mp h
      have hu' : meetsBound ok (some u) time = true := by
        rw [meetsBound, hok fb u hu]
        exact hfb
      cases window with
      | none =>
          cases h
          exact hu'
      | some w =>
          obtain ⟨m, hm, rfl⟩ := map_eq_ok.mp h
          exact meetsBound_pyExtreme hm hw hu'

end Bounds

/-! ## A folded clause bounds the records it accepts -/

section Accepted

variable {ctx : CompileContext} {r : Record}

/-- A date-time operand only compares with a stored date-time. -/
theorem datetime_of_comparable {stored : Value} {d : DateTime}
    (h : stored.comparable (.datetime d) = true) : ∃ s, stored = .datetime s := by
  cases stored <;> simp_all [Value.comparable]

theorem alignDt_instants {s d : DateTime} {p : Value × Value}
    (h : alignDt (.datetime s) (.datetime d) = .ok p) :
    ∃ s' d', p = (.datetime s', .datetime d') ∧ s'.instant = s.instant ∧ d'.instant = d.instant := by
  obtain ⟨s', hs, h⟩ := bind_eq_ok.mp h
  obtain ⟨d', hd, h⟩ := bind_eq_ok.mp h
  cases h
  exact ⟨s', d', rfl, toUtc_instant hs, toUtc_instant hd⟩

theorem systemEq_datetime {stored : Value} {d : DateTime}
    (h : systemEq stored (.datetime d) = .ok true) :
    ∃ s, stored = .datetime s ∧ s.instant = d.instant := by
  unfold systemEq at h
  split at h
  · cases h
  · split at h
    · cases h
    · rename_i hcomp
      obtain ⟨s, rfl⟩ := datetime_of_comparable (by simpa using hcomp)
      obtain ⟨p, hp, h⟩ := bind_eq_ok.mp h
      obtain ⟨s', d', rfl, hs, hd⟩ := alignDt_instants hp
      refine ⟨s, rfl, ?_⟩
      have heq := Except.ok.inj h
      simp only [Value.pyEq, Value.datetimeEq, Bool.and_eq_true, beq_iff_eq] at heq
      rw [← hs, ← hd, heq.2]

theorem systemRange_datetime {stored : Value} {d : DateTime} {c : Value.Cmp}
    (h : systemRange c stored (.datetime d) = .ok true) :
    ∃ s, stored = .datetime s ∧ Value.cmpInt c s.instant d.instant = true := by
  unfold systemRange at h
  split at h
  · cases h
  · split at h
    · cases h
    · rename_i hcomp
      obtain ⟨s, rfl⟩ := datetime_of_comparable (by simpa using hcomp)
      obtain ⟨p, hp, h⟩ := bind_eq_ok.mp h
      obtain ⟨s', d', rfl, hs, hd⟩ := alignDt_instants hp
      refine ⟨s, rfl, ?_⟩
      simp only [Value.pyCompare, Value.cmpDatetime] at h
      split at h
      · rw [← hs, ← hd]
        exact Except.ok.inj h
      · cases h

/-- What a consumable clause looks like. -/
theorem consumableDateClause_cases {child : Ast} {key : String} {op : Op} {d : DateTime}
    (h : consumableDateClause child = some (key, op, d)) :
    ∃ c, child = .clause c ∧ c.systemKey? = some "source_timestamp" ∧ c.op = op ∧
      asDatetime c.operand = some d ∧ (op = .eq ∨ op ∈ lowerOps ∨ op ∈ upperOps) := by
  cases child with
  | node op' cs => cases h
  | clause c =>
      obtain ⟨path, op', operand⟩ := c
      rcases path with _ | ⟨k, _ | ⟨k', rest⟩⟩
      · cases h
      · simp only [consumableDateClause] at h
        split at h
        · cases h
        · rename_i hkey
          split at h
          · cases h
          · rename_i hop
            obtain ⟨d', hd, heq⟩ := Option.map_eq_some_iff.mp h
            cases heq
            have hk : key = "source_timestamp" := by
              simpa [pushdownDateKeys] using hkey
            subst hk
            refine ⟨_, rfl, rfl, rfl, hd, ?_⟩
            tauto
      · cases h

theorem asDatetime_eq_some {v : Value} {d : DateTime} (h : asDatetime v = some d) :
    systemValue v = .datetime d ∧ v.isTuple = false ∧ v.isNone = false := by
  cases v <;> simp_all [asDatetime, systemValue, Value.isTuple, Value.isNone]

theorem windowTime_of_source {s : DateTime}
    (h : resolveSystem ctx r "source_timestamp" = .datetime s) : windowTime ctx r = some s := by
  rw [windowTime, h]

theorem compileSystemClause_rangeOp {op : Op} {cmp : Value.Cmp} {operand : Value} (key : String)
    (hop : rangeOp? op = some cmp) (hnone : operand.isNone = false) :
    compileSystemClause ctx key op operand =
      .ok fun r => systemRange cmp (resolveSystem ctx r key) (systemValue operand) := by
  cases op <;> simp_all [compileSystemClause, rangeOp?]

theorem rangeOp?_of_mem_lowerOps {op : Op} (h : op ∈ lowerOps) :
    ∃ cmp, rangeOp? op = some cmp ∧ ∀ a b, Value.cmpInt cmp a b = true → b ≤ a := by
  rcases List.mem_pair.mp h with rfl | rfl
  · refine ⟨.gt, rfl, fun a b hab => ?_⟩
    simp only [Value.cmpInt, Value.Cmp.decide, decide_eq_true_eq] at hab
    omega
  · refine ⟨.gte, rfl, fun a b hab => ?_⟩
    simp only [Value.cmpInt, Value.Cmp.decide, Bool.not_eq_true', decide_eq_false_iff_not] at hab
    omega

theorem rangeOp?_of_mem_upperOps {op : Op} (h : op ∈ upperOps) :
    ∃ cmp, rangeOp? op = some cmp ∧ ∀ a b, Value.cmpInt cmp a b = true → a ≤ b := by
  rcases List.mem_pair.mp h with rfl | rfl
  · refine ⟨.lt, rfl, fun a b hab => ?_⟩
    simp only [Value.cmpInt, Value.Cmp.decide, decide_eq_true_eq] at hab
    omega
  · refine ⟨.lte, rfl, fun a b hab => ?_⟩
    simp only [Value.cmpInt, Value.Cmp.decide, Bool.not_eq_true', decide_eq_false_iff_not] at hab
    omega

/-- **A folded clause bounds the records it accepts**: the stored time is a date-time on
the clause's side of its operand. -/
theorem consumed_clause_bounds {child : Ast} {key : String} {op : Op} {d : DateTime}
    (h : consumableDateClause child = some (key, op, d))
    {p : Predicate} (hp : compilePythonNode ctx child = .ok p) (hr : p r = .ok true) :
    (op = .eq ∨ op ∈ lowerOps → meetsLower (some d) (windowTime ctx r) = true) ∧
    (op = .eq ∨ op ∈ upperOps → meetsUpper (some d) (windowTime ctx r) = true) := by
  obtain ⟨c, rfl, hkey, rfl, hd, hop⟩ := consumableDateClause_cases h
  obtain ⟨hval, htuple, hnone⟩ := asDatetime_eq_some hd
  rw [compilePythonNode, compilePythonClause, hkey] at hp
  dsimp only at hp
  have hrange : ∀ cmp, rangeOp? c.op = some cmp →
      ∃ s, windowTime ctx r = some s ∧ Value.cmpInt cmp s.instant d.instant = true := by
    intro cmp hcmp
    rw [compileSystemClause_rangeOp _ hcmp hnone] at hp
    cases hp
    rw [hval] at hr
    obtain ⟨s, hs, hcmp⟩ := systemRange_datetime hr
    exact ⟨s, windowTime_of_source hs, hcmp⟩
  rcases hop with hop | hop | hop
  · have heq : p = fun r => systemEq (resolveSystem ctx r "source_timestamp")
        (systemValue c.operand) := by
      simpa [compileSystemClause, hop, htuple, hnone] using hp.symm
    rw [heq, hval] at hr
    obtain ⟨s, hs, hinst⟩ := systemEq_datetime hr
    rw [windowTime_of_source hs]
    simp [meetsLower, meetsUpper, meetsBound, hinst]
  · obtain ⟨cmp, hcmp, hle⟩ := rangeOp?_of_mem_lowerOps hop
    obtain ⟨s, hs, hcmp⟩ := hrange cmp hcmp
    rw [hs]
    refine ⟨fun _ => by simpa [meetsLower, meetsBound] using hle _ _ hcmp, ?_⟩
    intro h
    exact absurd h (by rcases List.mem_pair.mp hop with h | h <;> rw [h] <;> decide)
  · obtain ⟨cmp, hcmp, hle⟩ := rangeOp?_of_mem_upperOps hop
    obtain ⟨s, hs, hcmp⟩ := hrange cmp hcmp
    rw [hs]
    refine ⟨?_, fun _ => by simpa [meetsUpper, meetsBound] using hle _ _ hcmp⟩
    intro h
    exact absurd h (by rcases List.mem_pair.mp hop with h | h <;> rw [h] <;> decide)

/-- One child of the fold keeps a record that the child accepts. -/
theorem foldDate_keeps {acc next : CompiledBound} {child : Ast}
    (h : foldDate ctx acc child = .ok next) {p : Predicate}
    (hp : compilePythonNode ctx child = .ok p) (hr : p r = .ok true)
    (hlower : meetsLower acc.bound.createdAfter (windowTime ctx r) = true)
    (hupper : meetsUpper acc.bound.createdBefore (windowTime ctx r) = true) :
    meetsLower next.bound.createdAfter (windowTime ctx r) = true ∧
      meetsUpper next.bound.createdBefore (windowTime ctx r) = true := by
  unfold foldDate at h
  split at h
  · obtain ⟨_, _, h⟩ := bind_eq_ok.mp h
    cases h
    exact ⟨hlower, hupper⟩
  · rename_i key op value hclause
    obtain ⟨hlo, hup⟩ := consumed_clause_bounds hclause hp hr
    obtain ⟨c, -, -, -, -, hop⟩ := consumableDateClause_cases hclause
    obtain ⟨bound, hb, h⟩ := bind_eq_ok.mp h
    cases h
    unfold tighten at hb
    split at hb
    · rename_i heq
      obtain ⟨lower, hl, hb⟩ := bind_eq_ok.mp hb
      obtain ⟨upper, hu, hb⟩ := bind_eq_ok.mp hb
      cases hb
      exact ⟨meetsBound_tightenBound hl hlower (hlo (Or.inl heq)),
        meetsBound_tightenBound hu hupper (hup (Or.inl heq))⟩
    · rename_i hne
      split at hb
      · rename_i hmem
        obtain ⟨lower, hl, hb⟩ := bind_eq_ok.mp hb
        cases hb
        exact ⟨meetsBound_tightenBound hl hlower (hlo (Or.inr hmem)), hupper⟩
      · rename_i hmem
        obtain ⟨upper, hu, hb⟩ := bind_eq_ok.mp hb
        cases hb
        have hup' : op ∈ upperOps := by tauto
        exact ⟨hlower, meetsBound_tightenBound hu hupper (hup (Or.inr hup'))⟩

theorem exists_compiled_child {cs : List Ast} {ps : List Predicate}
    (h : compilePythonNodes ctx cs = .ok ps) {c : Ast} (hc : c ∈ cs) :
    ∃ p ∈ ps, compilePythonNode ctx c = .ok p := by
  induction cs generalizing ps with
  | nil => cases hc
  | cons d ds ih =>
      rw [compilePythonNodes] at h
      obtain ⟨q, hq, h⟩ := bind_eq_ok.mp h
      obtain ⟨qs, hqs, h⟩ := bind_eq_ok.mp h
      cases h
      rcases List.mem_cons.mp hc with rfl | hc
      · exact ⟨q, by simp, hq⟩
      · obtain ⟨p, hp, hpc⟩ := ih hqs hc
        exact ⟨p, by simp [hp], hpc⟩

/-- The window of a filter holds every record of the filter. -/
theorem meets_compileChronicle {ast : Ast} {cf : CompiledBound}
    (h : compileChronicle ctx ast = .ok cf) {p : Predicate} (hp : compilePython ctx ast = .ok p)
    (hr : p r = .ok true) :
    meetsLower cf.bound.createdAfter (windowTime ctx r) = true ∧
      meetsUpper cf.bound.createdBefore (windowTime ctx r) = true := by
  unfold compileChronicle at h
  split at h
  · rename_i children
    rw [compilePython, compilePythonNode] at hp
    obtain ⟨ps, hps, hp⟩ := bind_eq_ok.mp hp
    cases hp
    have hall := allM_eq_ok_true.mp hr
    -- Invariant of the fold: the window so far holds the record.
    refine foldlM_invariant
      (P := fun b : CompiledBound => meetsLower b.bound.createdAfter (windowTime ctx r) = true ∧
        meetsUpper b.bound.createdBefore (windowTime ctx r) = true) ?_ ⟨rfl, rfl⟩ h
    intro child hchild acc next hacc hnext
    obtain ⟨q, hq, hqc⟩ := exists_compiled_child hps hchild
    exact foldDate_keeps hnext hqc (hall q hq) hacc.1 hacc.2
  · obtain ⟨_, _, h⟩ := bind_eq_ok.mp h
    cases h
    exact ⟨rfl, rfl⟩

end Accepted

/-! ## Utc operands never make the fold raise -/

/-- Absent or in UTC. -/
def UtcBound (b : Option DateTime) : Prop := ∀ d, b = some d → d.offset = some 0

theorem utcBound_none : UtcBound none := by
  intro d h
  cases h

theorem utcBound_some {d : DateTime} (hd : d.offset = some 0) : UtcBound (some d) := by
  intro d' h
  cases h
  exact hd

theorem pyExtreme_of_utc (c : Value.Cmp) {a b : DateTime} (ha : a.offset = some 0)
    (hb : b.offset = some 0) : ∃ m, pyExtreme c a b = .ok m ∧ m.offset = some 0 := by
  have haware : b.aware = a.aware := by simp [DateTime.aware, ha, hb]
  refine ⟨if Value.cmpInt c b.instant a.instant then b else a, ?_, ?_⟩
  · rw [pyExtreme, Value.cmpDatetime, if_pos haware]
    rfl
  · split
    · exact hb
    · exact ha

theorem tightenBound_of_utc (c : Value.Cmp) {current : Option DateTime} {d : DateTime}
    (hcur : UtcBound current) (hd : d.offset = some 0) :
    ∃ m, tightenBound c current d = .ok m ∧ m.offset = some 0 := by
  cases current with
  | none => exact ⟨d, rfl, hd⟩
  | some b => exact pyExtreme_of_utc c (hcur b rfl) hd

theorem tighten_of_utc {b : ChronicleDateBound} {op : Op} {d : DateTime}
    (hlower : UtcBound b.createdAfter) (hupper : UtcBound b.createdBefore)
    (hd : d.offset = some 0) :
    ∃ b', tighten b op d = .ok b' ∧ UtcBound b'.createdAfter ∧ UtcBound b'.createdBefore := by
  obtain ⟨l, hl, hlutc⟩ := tightenBound_of_utc .gt hlower hd
  obtain ⟨u, hu, huutc⟩ := tightenBound_of_utc .lt hupper hd
  unfold tighten maxLower minUpper
  split
  · rw [hl, hu]
    exact ⟨_, rfl, utcBound_some hlutc, utcBound_some huutc⟩
  · split
    · rw [hl]
      exact ⟨_, rfl, utcBound_some hlutc, hupper⟩
    · rw [hu]
      exact ⟨_, rfl, hlower, utcBound_some huutc⟩

/-- **The fold returns**: in split mode, with every `source_timestamp` operand in UTC as
the validator leaves it. -/
theorem compileChronicle_returns {ctx : CompileContext} {ast : Ast} (hsplit : ctx.isSplit = true)
    (hutc : ∀ c ∈ ast.leaves, c.systemKey? = some "source_timestamp" →
      ∀ d, asDatetime c.operand = some d → d.offset = some 0) :
    ∃ cf, compileChronicle ctx ast = .ok cf ∧ UtcBound cf.bound.createdAfter ∧
      UtcBound cf.bound.createdBefore := by
  have hreject : ∀ t, rejectIfRaise ctx t = .ok () := by
    intro t
    have hmode : ctx.onUnsupported ≠ .raise := by
      have hs : ctx.onUnsupported = .split := by simpa [CompileContext.isSplit] using hsplit
      rw [hs]
      decide
    rw [rejectIfRaise, if_neg hmode]
  unfold compileChronicle
  split
  · rename_i children
    refine returns_foldlM (P := fun b : CompiledBound => UtcBound b.bound.createdAfter ∧
      UtcBound b.bound.createdBefore) ?_ ⟨utcBound_none, utcBound_none⟩
    intro child hchild acc hacc
    unfold foldDate
    split
    · rw [hreject]
      exact ⟨acc, rfl, hacc⟩
    · rename_i key op value hclause
      obtain ⟨c, rfl, hkey, -, hd, -⟩ := consumableDateClause_cases hclause
      have hleaf : c ∈ (Ast.node .and children).leaves := by
        rw [Ast.leaves_node]
        exact List.mem_flatMap.mpr ⟨_, hchild, by simp⟩
      obtain ⟨b, hb, hlower, hupper⟩ := tighten_of_utc hacc.1 hacc.2 (hutc c hleaf hkey value hd)
      rw [hb]
      exact ⟨_, rfl, hlower, hupper⟩
  · rw [hreject]
    exact ⟨_, rfl, utcBound_none, utcBound_none⟩

/-- **The pushed window loses no record.**  A record the filter accepts lies in the window
`compile_chronicle` distils, and whenever it lies in a window of the caller it lies in
the intersection of the two. -/
theorem chronicle_superset {ctx : CompileContext} {ast : Ast} {cf : CompiledBound}
    (h : compileChronicle ctx ast = .ok cf) {p : Predicate} (hp : compilePython ctx ast = .ok p)
    {r : Record} (hr : p r = .ok true) :
    inWindow cf.bound.createdAfter cf.bound.createdBefore (windowTime ctx r) = true ∧
    ∀ after before lower upper, intersectLower after cf.bound.createdAfter = .ok lower →
      intersectUpper before cf.bound.createdBefore = .ok upper →
      inWindow after before (windowTime ctx r) = true →
      inWindow lower upper (windowTime ctx r) = true := by
  obtain ⟨hlower, hupper⟩ := meets_compileChronicle h hp hr
  refine ⟨by rw [inWindow, hlower, hupper]; rfl, ?_⟩
  intro after before lower upper hl hu hwin
  rw [inWindow, Bool.and_eq_true] at hwin ⊢
  constructor
  · refine meetsBound_intersectBound ?_ hl hwin.1 hlower
    intro d u hdu
    rw [toUtc_instant hdu]
  · refine meetsBound_intersectBound ?_ hu hwin.2 hupper
    intro d u hdu
    rw [toUtc_instant hdu]

/-- Sources from the second of January to before the fifth, by title. -/
def sinceTree : Ast :=
  .node .and
    [.clause ⟨["source_timestamp"], .gte, .datetime (january 2 (Eq.refl true))⟩,
      .clause ⟨["title"], .eq, .str "x"⟩,
      .clause ⟨["source_timestamp"], .lt, .datetime (january 5 (Eq.refl true))⟩]

theorem compileChronicle_returns_sinceTree : ∃ cf, compileChronicle splitContext sinceTree = .ok cf ∧
    UtcBound cf.bound.createdAfter ∧ UtcBound cf.bound.createdBefore := by
  refine compileChronicle_returns rfl fun c hc hkey d hd => ?_
  rcases hc with _ | ⟨_, _ | ⟨_, _ | ⟨_, ⟨⟩⟩⟩⟩
  · cases hd
    rfl
  · cases hd
  · cases hd
    rfl

def titledRecord (title : String) (time : DateTime) : Record where
  attr := fun k =>
    if k = "title" then some (.str title)
    else if k = "source_timestamp" then some (.datetime time)
    else none
  sourceDocument := none
  item := none

theorem chronicle_superset_sinceTree : ∃ cf p, compileChronicle splitContext sinceTree = .ok cf ∧
    compilePython splitContext sinceTree = .ok p ∧
    p (titledRecord "x" (january 3 (by decide))) = .ok true ∧
    inWindow cf.bound.createdAfter cf.bound.createdBefore
      (windowTime splitContext (titledRecord "x" (january 3 (by decide)))) = true := by
  have haccepts : ∀ p, compilePython splitContext sinceTree = .ok p →
      p (titledRecord "x" (january 3 (by decide))) = .ok true := by
    intro p hp
    cases hp
    decide
  obtain ⟨cf, hcf⟩ : ∃ cf, compileChronicle splitContext sinceTree = .ok cf := ⟨_, rfl⟩
  obtain ⟨p, hp⟩ : ∃ p, compilePython splitContext sinceTree = .ok p := ⟨_, rfl⟩
  exact ⟨cf, p, hcf, hp, haccepts p hp, (chronicle_superset hcf hp (haccepts p hp)).1⟩

end Khora
