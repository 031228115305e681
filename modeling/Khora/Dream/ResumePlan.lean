import Khora.Dream.Planners

/-!
# Resuming a dream run

A resumed run reads the sequence number of the last op that was committed, plans again over the
store as the commits left it, and skips the ops up to that number.  The number is a place in the
old plan: the new plan does not contain what is done, so that what it skips is still to be done.

* `resumeComplete_iff` — a resumed run reaches every missing effect exactly if the first `k + 1`
  ops of the new plan have none.
* `resume_dispatches_rest` — for the planners of both engines: exactly if they find nothing to do,
  apart from merges that change nothing and, behind `k + 1` of those, arrays to clean.
* `secondArray_skipped` — the second of two arrays to clean is never cleaned.
-/

namespace Khora

/-! ## The run and its resumption -/

section Resume

variable {S Op : Type}

/-- The run stops after op `k`. -/
def stoppedAfter (k : ℕ) : Attempt :=
  { calmAttempt with crash := fun seq => if seq = k + 1 then some 0 else none }

/-- The store after the ops `0..k`. -/
def committedStore (handle : ℕ → Op → S → S) (plan : List Op) (k : ℕ) (s : S) : S :=
  ((plan.take (k + 1)).zipIdx).foldl (fun s p => handle p.2 p.1 s) s

variable (kind : Op → OpKind) (budget : LlmBudget)

/-- The resumed run, with the plan `second`, hands its op `i` to a handler. -/
def ResumeDispatches (k : ℕ) (first second : List Op) (i : ℕ) : Prop :=
  ⟨i, .dispatched⟩ ∈ applyPhase (.sql true) budget calmAttempt
    (readLastCommitted (.sql true) (firstAttempt (.sql true) budget (first.map kind) (stoppedAfter k)))
    0 (second.map kind)

/-- Every op of the new plan whose effect is missing is dispatched. -/
def ResumeComplete (present : Op → Prop) (k : ℕ) (first second : List Op) : Prop :=
  ∀ i op, second[i]? = some op → ¬present op → ResumeDispatches kind budget k first second i

variable {kind budget}

/-- The checkpoint of the stopped run. -/
theorem readLastCommitted_stoppedAfter {k : ℕ} {ops : List OpKind} (hk : k < ops.length) :
    readLastCommitted (.sql true) (firstAttempt (.sql true) budget ops (stoppedAfter k)) = k := by
  have hrefuses : ∀ j op, (stoppedAfter k).refuses budget j op = false :=
    fun j op => calmAttempt_refuses j op
  have hiff : ∀ i : ℕ, (i : ℤ) ≤ readLastCommitted (.sql true)
      (firstAttempt (.sql true) budget ops (stoppedAfter k)) ↔ i ≤ k := by
    intro i
    unfold firstAttempt
    rw [le_readLastCommitted_iff]
    constructor
    · rintro ⟨j, hij, -, hreach, op, -, -, hcrash⟩
      refine Nat.le_trans hij (Nat.le_of_not_lt fun hlt => ?_)
      rcases Nat.lt_or_eq_of_le (Nat.succ_le_of_lt hlt) with hgt | heq
      · -- the run does not come past the op it stops at
        have hnone := hreach.2 (k + 1) hgt
        rw [stoppedAfter] at hnone
        dsimp only at hnone
        rw [if_pos rfl] at hnone
        cases hnone
      · have hlen := hcrash 0 (by rw [stoppedAfter, ← heq]; exact if_pos rfl)
        obtain ⟨e, he, -⟩ := @opEvents_takesUp (.sql true) budget (stoppedAfter k) j op (hrefuses j op)
        rw [List.length_eq_zero_iff.mp (Nat.le_zero.mp hlen)] at he
        cases he
    · intro hik
      have hcrash : ∀ j ≤ k, (stoppedAfter k).crash j = none := by
        intro j hj
        rw [stoppedAfter]
        exact if_neg (by omega)
      refine ⟨k, hik, (fun h => by cases h), ⟨fun _ _ => rfl, fun j hj => hcrash j hj.le⟩, ops[k],
        List.getElem?_eq_getElem hk, hrefuses k _, fun n hn => ?_⟩
      rw [hcrash k (Nat.le_refl k)] at hn
      cases hn
  have hle := (hiff k).mpr (Nat.le_refl k)
  have hlt : ¬((k + 1 : ℕ) : ℤ) ≤ _ := fun h => absurd ((hiff (k + 1)).mp h) (by omega)
  omega

/-- The five kinds of mutation that need no LLM. -/
def OpKind.isMutation : OpKind → Bool
  | .vectorcypherPruneEdges | .vectorcypherDedupeEntities | .vectorcypherSourceChunkIdsGc
  | .chronicleFactCompaction | .chronicleEventClustering => true
  | _ => false

theorem opEvents_mutation {op : OpKind} (h : op.isMutation = true) (seq : ℕ) :
    opEvents (.sql true) budget calmAttempt seq op = [.dispatched, .transacted] := by
  cases op with
  | vectorcypherPruneEdges => rfl
  | vectorcypherDedupeEntities => rfl
  | vectorcypherSourceChunkIdsGc => rfl
  | chronicleFactCompaction => rfl
  | chronicleEventClustering => rfl
  | _ => cases h

/-- The resumed run dispatches exactly the ops behind the checkpoint. -/
theorem resumeDispatches_iff {k : ℕ} {first second : List Op} (hk : k < first.length)
    (hkind : ∀ op, (kind op).isMutation = true) {i : ℕ} {op : Op} (hop : second[i]? = some op) :
    ResumeDispatches kind budget k first second i ↔ k < i := by
  unfold ResumeDispatches
  rw [mem_applyPhase, readLastCommitted_stoppedAfter (by rwa [List.length_map])]
  constructor
  · rintro ⟨-, hlt, -⟩
    exact Int.ofNat_lt.mp hlt
  · intro hlt
    refine ⟨calmAttempt_reaches i, Int.ofNat_lt.mpr hlt, kind op, ?_, ?_⟩
    · rw [List.getElem?_map, hop]
      rfl
    · rw [executed_of_not_crash rfl, opEvents_mutation (hkind op)]
      exact List.mem_cons_self

/-- **What a resumed run reaches**: every missing effect, exactly if none is planned among the
first `k + 1` ops. -/
theorem resumeComplete_iff {present : Op → Prop} {k : ℕ} {first second : List Op} (hk : k < first.length)
    (hkind : ∀ op, (kind op).isMutation = true) :
    ResumeComplete kind budget present k first second ↔ ∀ op ∈ second.take (k + 1), present op := by
  constructor
  · intro h op hop
    obtain ⟨i, hi, rfl⟩ := List.mem_iff_getElem.mp hop
    rw [List.length_take] at hi
    by_contra hmissing
    rw [List.getElem_take] at hmissing
    have hget : second[i]? = some second[i] := List.getElem?_eq_getElem (by omega)
    have hlt := (resumeDispatches_iff hk hkind hget).mp (h i _ hget hmissing)
    omega
  · intro h i op hop hmissing
    rw [resumeDispatches_iff hk hkind hop]
    by_contra hle
    apply hmissing
    apply h
    refine List.mem_of_getElem? (i := i) ?_
    rw [List.getElem?_take, if_pos (by omega)]
    exact hop

/-- Ops with missing effects at the head of a plan. -/
theorem eq_nil_of_missing {present : Op → Prop} {k : ℕ} {missing rest : List Op}
    (hmissing : ∀ op ∈ missing, ¬present op) (h : ∀ op ∈ (missing ++ rest).take (k + 1), present op) :
    missing = [] := by
  cases missing with
  | nil => rfl
  | cons op ops => exact absurd (h op List.mem_cons_self) (hmissing op List.mem_cons_self)

end Resume

/-! ## Both engines -/

section Engines

variable {Id T V : Type} [LinearOrder Id] [LinearOrder T] (cfg : DreamPlanConfig)

/-- What the planners find in the store leaves the first `k + 1` ops without an effect: no edge is
to be pruned, the first duplicates are merged or collide, and no array is to be cleaned unless
`k + 1` such duplicates come first. -/
structure VectorCypherStore.Exhausted (newId : Id → Id)
    (blockAndScorePairs : List V → List String → ℚ → List (ℕ × ℕ × ℚ)) (now : T) (k : ℕ)
    (s : VectorCypherStore Id T V) : Prop where
  prune : cfg.wanted .vectorcypherPruneEdges = true → ∀ r ∈ s.tables.relationships.rows, s.prunes cfg r = false
  dedupe : cfg.wanted .vectorcypherDedupeEntities = true →
    ∀ op ∈ (s.duplicateComponents cfg newId blockAndScorePairs now).take (k + 1), ∀ entry ∈ op.merges, s.Merged entry
  gc : cfg.wanted .vectorcypherSourceChunkIdsGc = true →
    (cfg.wanted .vectorcypherDedupeEntities = true ∧
      k < (s.duplicateComponents cfg newId blockAndScorePairs now).length) ∨
    ∀ e ∈ s.tables.entities.rows, ((s.deadChunkIds e.id).length : ℤ) < max 1 cfg.gcMinDead

/-- The planners find nothing: no fact is stale and no events cluster. -/
structure ChronicleStore.Exhausted (cosine : V → V → ℚ) (threshold : T) (s : ChronicleStore Id T V) : Prop where
  compaction : cfg.wanted .chronicleFactCompaction = true → s.staleFacts threshold = []
  clustering : cfg.wanted .chronicleEventClustering = true → ChronicleStore.clusterEvents cfg cosine s.clusterable = []

variable {cfg} {newId : Id → Id} {blockAndScorePairs : List V → List String → ℚ → List (ℕ × ℕ × ℚ)} {now : T}
  {k : ℕ}

/-- The planned ops of a kind that is wanted. -/
theorem mem_wanted {Op : Type} {wanted : Bool} {ops : List Op} {op : Op} :
    op ∈ (if wanted then ops else []) ↔ wanted = true ∧ op ∈ ops := by
  cases wanted with
  | false => exact ⟨fun h => (by cases h), fun h => (by cases h.1)⟩
  | true => exact ⟨fun h => ⟨rfl, h⟩, fun h => h.2⟩

theorem wanted_eq_nil {Op : Type} {wanted : Bool} {ops : List Op} :
    (if wanted then ops else []) = [] ↔ (wanted = true → ops = []) := by
  cases wanted with
  | false => exact ⟨fun _ h => (by cases h), fun _ => rfl⟩
  | true => exact ⟨fun h _ => h, fun h => h rfl⟩

omit [LinearOrder T] in
/-- No edge is planned exactly if no row asks for it. -/
theorem VectorCypherStore.planPruneEdges_eq_nil {s : VectorCypherStore Id T V} :
    s.planPruneEdges cfg = [] ↔ ∀ r ∈ s.tables.relationships.rows, s.prunes cfg r = false := by
  unfold planPruneEdges
  rw [List.map_eq_nil_iff, List.filter_eq_nil_iff]
  exact forall₂_congr fun _ _ => iff_of_eq (Bool.not_eq_true _)

omit [LinearOrder T] in
theorem VectorCypherStore.planSourceChunkIdsGc_eq_nil {s : VectorCypherStore Id T V} :
    s.planSourceChunkIdsGc cfg = [] ↔
      ∀ e ∈ s.tables.entities.rows, ((s.deadChunkIds e.id).length : ℤ) < max 1 cfg.gcMinDead := by
  unfold planSourceChunkIdsGc
  rw [List.map_eq_nil_iff, List.filter_eq_nil_iff]
  refine forall₂_congr fun e _ => ?_
  rw [decide_eq_true_iff, not_le]

theorem VectorCypherStore.exhausted_iff {s : VectorCypherStore Id T V} :
    (∀ op ∈ (s.planDream cfg newId blockAndScorePairs now).take (k + 1), s.Present op) ↔
      s.Exhausted cfg newId blockAndScorePairs now k := by
  have hprune : ∀ op ∈ (if cfg.wanted .vectorcypherPruneEdges then s.planPruneEdges cfg else []),
      ¬s.Present op := fun op hop => prune_missing (mem_wanted.mp hop).2
  have hgc : ∀ op ∈ (if cfg.wanted .vectorcypherSourceChunkIdsGc then s.planSourceChunkIdsGc cfg else []),
      ¬s.Present op := fun op hop => gc_missing (mem_wanted.mp hop).2
  unfold planDream
  constructor
  · intro h
    rw [List.append_assoc] at h
    have hnone := eq_nil_of_missing hprune h
    rw [hnone, List.nil_append, List.take_append] at h
    refine ⟨fun hw => ?_, fun hw op hop entry hentry => ?_, fun hw => ?_⟩
    · exact planPruneEdges_eq_nil.mp (wanted_eq_nil.mp hnone hw)
    · refine h (.dedupeEntities op) (List.mem_append_left _ ?_) entry hentry
      rw [if_pos hw, ← List.map_take]
      exact List.mem_map_of_mem hop
    · -- with `k + 1` components in front the arrays are out of reach
      by_cases hfull : k < (if cfg.wanted .vectorcypherDedupeEntities then
          (s.duplicateComponents cfg newId blockAndScorePairs now).map VectorCypherOp.dedupeEntities else []).length
      · left
        cases hd : cfg.wanted .vectorcypherDedupeEntities with
        | false =>
            rw [hd] at hfull
            exact absurd hfull (Nat.not_lt_zero k)
        | true =>
            rw [hd, if_pos rfl, List.length_map] at hfull
            exact ⟨rfl, hfull⟩
      · right
        obtain ⟨m, hm⟩ := Nat.exists_eq_add_of_le (Nat.le_of_not_lt hfull)
        rw [hm, Nat.add_assoc, Nat.add_sub_cancel_left] at h
        have harrays := @eq_nil_of_missing _ _ m _ [] hgc fun op hop => h op (List.mem_append_right _ (by
          rwa [List.append_nil] at hop))
        exact planSourceChunkIdsGc_eq_nil.mp (wanted_eq_nil.mp harrays hw)
  · rintro ⟨hp, hd, hg⟩ op hop
    have hnone : (if cfg.wanted .vectorcypherPruneEdges then s.planPruneEdges cfg else []) = [] :=
      wanted_eq_nil.mpr fun hw => planPruneEdges_eq_nil.mpr (hp hw)
    rw [hnone, List.nil_append, List.take_append] at hop
    rcases List.mem_append.mp hop with hop | hop
    · cases hw : cfg.wanted .vectorcypherDedupeEntities with
      | false =>
          rw [hw] at hop
          cases List.mem_of_mem_take hop
      | true =>
          rw [hw, if_pos rfl, ← List.map_take] at hop
          obtain ⟨d, hmem, rfl⟩ := List.mem_map.mp hop
          exact hd hw d hmem
    · have hw := (mem_wanted.mp (List.mem_of_mem_take hop)).1
      rcases hg hw with ⟨hdw, hlt⟩ | hclean
      · rw [hdw, if_pos rfl, List.length_map, Nat.sub_eq_zero_of_le (Nat.succ_le_of_lt hlt)] at hop
        cases hop
      · rw [hw, if_pos rfl, planSourceChunkIdsGc_eq_nil.mpr hclean, List.take_nil] at hop
        cases hop

theorem ChronicleStore.exhausted_iff {s : ChronicleStore Id T V} {cosine : V → V → ℚ} {threshold : T} :
    (∀ op ∈ (s.planDream cfg newId cosine threshold).take (k + 1), s.Present op) ↔
      s.Exhausted cfg cosine threshold := by
  have hmissing : ∀ op ∈ s.planDream cfg newId cosine threshold, ¬s.Present op := by
    intro op hop
    rcases List.mem_append.mp hop with hop | hop
    · exact compact_missing (mem_wanted.mp hop).2
    · exact cluster_missing (mem_wanted.mp hop).2
  have hfacts : s.planFactCompaction threshold = [] ↔ s.staleFacts threshold = [] := List.map_eq_nil_iff
  have hclusters : s.planEventClustering cfg newId cosine = [] ↔ clusterEvents cfg cosine s.clusterable = [] := by
    unfold planEventClustering
    constructor
    · intro h
      rw [List.filterMap_eq_nil_iff] at h
      refine List.eq_nil_iff_forall_not_mem.mpr fun members hmem => ?_
      -- a cluster has a canonical row
      have hlen := (clusterEvents_spec hmem).2
      have hnone := h members hmem
      cases members with
      | nil =>
          rw [List.length_nil] at hlen
          omega
      | cons r rs => cases hnone
    · intro h
      rw [h]
      rfl
  have hplan : s.planDream cfg newId cosine threshold = [] ↔ s.Exhausted cfg cosine threshold := by
    unfold planDream
    rw [List.append_eq_nil_iff, wanted_eq_nil, wanted_eq_nil, hfacts, hclusters]
    exact ⟨fun h => ⟨h.1, h.2⟩, fun h => ⟨h.1, h.2⟩⟩
  rw [← hplan]
  constructor
  · intro h
    apply @eq_nil_of_missing _ _ k _ [] hmissing
    rw [List.append_nil]
    exact h
  · intro h op hop
    rw [h] at hop
    cases hop

end Engines

theorem VectorCypherOp.isMutation {Id : Type} (op : VectorCypherOp Id) : op.kind.isMutation = true := by
  cases op <;> rfl

theorem ChronicleOp.isMutation {Id : Type} (op : ChronicleOp Id) : op.kind.isMutation = true := by
  cases op <;> rfl

/-- **A resumed run applies what is left exactly if the planners find nothing in front of the
checkpoint**: with `s` the store as the first `k + 1` commits left it, every op of the new plan
whose effect is missing is dispatched if and only if `s` is exhausted. -/
theorem resume_dispatches_rest {Id T V : Type} [LinearOrder Id] [LinearOrder T] (cfg : DreamPlanConfig)
    (budget : LlmBudget) (newId newId' : Id → Id) (clock : ℕ → T) (k : ℕ) :
    (∀ (blockAndScorePairs : List V → List String → ℚ → List (ℕ × ℕ × ℚ))
      (judge : ℕ → MergeEntry Id → VerifierDecision) (now now' : T) (s₀ : VectorCypherStore Id T V),
      let plan := s₀.planDream cfg newId blockAndScorePairs now
      let s := committedStore (fun seq => VectorCypherStore.handle cfg.band (judge seq) (clock seq)) plan k s₀
      k < plan.length →
      (ResumeComplete VectorCypherOp.kind budget s.Present k plan
          (s.planDream cfg newId' blockAndScorePairs now') ↔
        s.Exhausted cfg newId' blockAndScorePairs now' k)) ∧
    ∀ (cosine : V → V → ℚ) (threshold threshold' : T) (s₀ : ChronicleStore Id T V),
      let plan := s₀.planDream cfg newId cosine threshold
      let s := committedStore (fun seq => ChronicleStore.handle (clock seq)) plan k s₀
      k < plan.length →
      (ResumeComplete ChronicleOp.kind budget s.Present k plan (s.planDream cfg newId' cosine threshold') ↔
        s.Exhausted cfg cosine threshold') := by
  constructor
  · intro kernel judge now now' s₀ plan s hk
    rw [resumeComplete_iff hk VectorCypherOp.isMutation]
    exact VectorCypherStore.exhausted_iff
  · intro cosine threshold threshold' s₀ plan s hk
    rw [resumeComplete_iff hk ChronicleOp.isMutation]
    exact ChronicleStore.exhausted_iff

/-! ## The second of two arrays -/

/-- Only the arrays of chunk ids are cleaned. -/
def gcOnly : DreamPlanConfig where
  wanted := fun kind => kind == .vectorcypherSourceChunkIdsGc
  pruneTargetPredicates := []
  pruneConfidenceThreshold := 0
  dedupeDefaultThreshold := 0
  dedupePerTypeThresholds := []
  gcMinDead := 1
  clusteringCosineThreshold := 0
  clusteringWindow := 0
  band := ⟨0, 0⟩

theorem twoEntities_nodup : (([⟨10, none⟩, ⟨11, none⟩] : List (Entity ℕ ℕ)).map Entity.id).Nodup := by decide

/-- Two entities, each with one reference to a chunk that is gone. -/
def twoDeadArrays : VectorCypherStore ℕ ℕ Unit where
  tables := ⟨⟨[], List.nodup_nil⟩, ⟨[⟨10, none⟩, ⟨11, none⟩], twoEntities_nodup⟩⟩
  edges := fun _ => ⟨0, none, []⟩
  entities := fun i => ⟨"", "", 0, 0, none, [i + 100]⟩
  chunks := []

/-- The store after the first ops of its plan, up to a place. -/
def cleanedUpTo (k : ℕ) : VectorCypherStore ℕ ℕ Unit :=
  committedStore (fun _ => VectorCypherStore.handle gcOnly.band (fun _ => .merge) 0)
    (twoDeadArrays.planDream gcOnly id (fun _ _ _ => []) 0) k twoDeadArrays

/-- The store after the first of the two clean-ups. -/
def oneDeadArray : VectorCypherStore ℕ ℕ Unit := cleanedUpTo 0

/-- A run that is resumed behind its last op leaves nothing out; one that is resumed behind the first does. -/
theorem resume_dispatches_lastOp :
    (ResumeComplete VectorCypherOp.kind ⟨0, 0⟩ (cleanedUpTo 1).Present 1
        (twoDeadArrays.planDream gcOnly id (fun _ _ _ => []) 0)
        ((cleanedUpTo 1).planDream gcOnly id (fun _ _ _ => []) 0)) ∧
      ¬ oneDeadArray.Exhausted gcOnly id (fun _ _ _ => []) 0 0 := by
  have hresume := (resume_dispatches_rest gcOnly ⟨0, 0⟩ id id (fun _ => 0) 1).1
    (fun _ _ _ => []) (fun _ _ => .merge) 0 0 twoDeadArrays (by decide)
  constructor
  · refine hresume.mpr ⟨fun hprune => (by cases hprune), fun hdedupe => (by cases hdedupe), fun _ => .inr ?_⟩
    decide
  · intro h
    rcases h.gc rfl with ⟨hdedupe, -⟩ | hclean
    · cases hdedupe
    · exact absurd (hclean ⟨11, none⟩ (by decide)) (by decide)

/-- **The second array is never cleaned**: the run stops after the first of its two ops, the new
plan has the other one at place 0, and the resumed run skips it. -/
theorem secondArray_skipped :
    twoDeadArrays.planDream gcOnly id (fun _ _ _ => []) 0 = [.sourceChunkIdsGc 10 [], .sourceChunkIdsGc 11 []] ∧
    oneDeadArray.planDream gcOnly id (fun _ _ _ => []) 0 = [.sourceChunkIdsGc 11 []] ∧
    ¬oneDeadArray.Present (.sourceChunkIdsGc 11 []) ∧
    ¬ResumeComplete VectorCypherOp.kind ⟨0, 0⟩ oneDeadArray.Present 0
      (twoDeadArrays.planDream gcOnly id (fun _ _ _ => []) 0)
      (oneDeadArray.planDream gcOnly id (fun _ _ _ => []) 0) := by
  have hfirst : twoDeadArrays.planDream gcOnly id (fun _ _ _ => []) 0 =
      [.sourceChunkIdsGc 10 [], .sourceChunkIdsGc 11 []] := rfl
  have hsecond : oneDeadArray.planDream gcOnly id (fun _ _ _ => []) 0 = [.sourceChunkIdsGc 11 []] := rfl
  have hmissing : ¬oneDeadArray.Present (.sourceChunkIdsGc 11 []) := by
    intro h
    have harray : (oneDeadArray.entities 11).sourceChunkIds = [] := h (by decide)
    cases harray
  refine ⟨hfirst, hsecond, hmissing, fun h => ?_⟩
  have hdispatched := h 0 (.sourceChunkIdsGc 11 []) (by rw [hsecond]; rfl) hmissing
  rw [resumeDispatches_iff (by rw [hfirst]; decide) VectorCypherOp.isMutation (by rw [hsecond]; rfl)] at hdispatched
  exact Nat.lt_irrefl 0 hdispatched

end Khora
