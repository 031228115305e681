import Khora.Dream.Planners
import Khora.Dream.UnionFind

/-!
# The plan of a dedupe

`plan_vectorcypher_dedupe_entities` sorts the entities, scores the pairs of each bucket of one
entity type, forms the components of the pairs and emits one op for each: its canonical entity
absorbs the others, or, if an entity outside the component has the canonical name and type, the
op is kept for review.

* `mem_connectedComponents` — the components are those of the candidate graph.
* `allIds_nodup` — no entity is in two ops, as canonical or absorbed.
* `planVectorcypherDedupeEntities_perm` — neither the order of the entities nor that of the
  pairs matters.
* `dedupePlan_spec` — all of it.
-/

namespace Khora

open VectorCypherStore

variable {Id T V : Type}

/-- `DreamOp.decision` of a component -/
inductive DedupeDecision where
  | planned
  | skipUniqueCollision
deriving DecidableEq

/-- The op of a component, with what its `inputs` say. -/
structure PlannedDedupe (Id : Type) where
  op : DedupeOp Id
  decision : DedupeDecision
  entityType : String
  threshold : ℚ
  similarityScore : Option ℚ
  keepId : Id
  dropIds : List Id
  survivingName : String
  componentSize : ℕ
  collision : Option (Id × String)

/-- The canonical entity, then those it absorbs. -/
def PlannedDedupe.allIds (op : PlannedDedupe Id) : List Id := op.keepId :: op.dropIds

/-- The sequence that operators see: what is kept, what is dropped, and the merges. -/
def PlannedDedupe.outcome (op : PlannedDedupe Id) : Id × List Id × List (MergeEntry Id) :=
  (op.keepId, op.dropIds, op.op.merges)

namespace DedupePlan

variable [LinearOrder Id] [LinearOrder T] (cfg : DreamPlanConfig) (newId : Id → Id)
  (blockAndScorePairs : List V → List String → ℚ → List (ℕ × ℕ × ℚ))

/-- `per_type.get(entity_type, default_threshold)` -/
def thresholdOf (entityType : String) : ℚ :=
  ((cfg.dedupePerTypeThresholds.find? fun t => t.1 = entityType).map Prod.snd).getD
    cfg.dedupeDefaultThreshold

/-- The entities of a type that have an embedding. -/
def bucketOf (entities : List (Id × EntityColumns Id T V)) (entityType : String) :
    List (Id × EntityColumns Id T V) :=
  entities.filter fun e => e.2.entityType = entityType && e.2.embedding.isSome

/-- The candidate pairs of a bucket, sorted by their indices. -/
def candidatePairs (bucket : List (Id × EntityColumns Id T V)) (entityType : String) :
    List (ℕ × ℕ × ℚ) :=
  (blockAndScorePairs (bucket.filterMap fun e => e.2.embedding) (bucket.map fun e => e.2.name)
    (thresholdOf cfg entityType)).mergeSort fun p q => decide (toLex (p.1, p.2.1) ≤ toLex (q.1, q.2.1))

/-- `[bucket[i] for i in sorted(member_indices)]`, with the indices. -/
def membersOf (bucket : List (Id × EntityColumns Id T V)) (indices : List ℕ) :
    List (ℕ × Id × EntityColumns Id T V) :=
  indices.filterMap fun i => bucket[i]?.map fun e => (i, e)

/-- `_build_component_op` -/
def buildComponentOp (entityType : String) (pairs : List (ℕ × ℕ × ℚ))
    (listed : List (Id × EntityColumns Id T V)) (members : List (ℕ × Id × EntityColumns Id T V)) :
    Option (PlannedDedupe Id) :=
  (pickCanonical members).map fun canonical =>
    let threshold := thresholdOf cfg entityType
    let componentIds := members.map fun m => m.2.1
    let collision := listed.find? fun e => e.2.name = canonical.2.2.name &&
      e.2.entityType = entityType && !componentIds.contains e.1
    let absorbed := members.filter fun m => m.2.1 ≠ canonical.2.1
    let merges : List (MergeEntry Id) := absorbed.map fun m =>
      ⟨canonical.2.1, m.2.1, some (memberScore pairs threshold m.1 canonical.1)⟩
    { op := ⟨newId canonical.2.1, if collision.isSome then [] else merges⟩
      decision := if collision.isSome then .skipUniqueCollision else .planned
      entityType := entityType
      threshold := threshold
      similarityScore := if collision.isSome then none
        else some (((merges.filterMap MergeEntry.similarityScore).max?).getD threshold)
      keepId := canonical.2.1
      dropIds := absorbed.map fun m => m.2.1
      survivingName := canonical.2.2.name
      componentSize := members.length
      collision := collision.map fun e => (e.1, e.2.name) }

/-- The components of the bucket of a type. -/
def componentsOf (listed : List (Id × EntityColumns Id T V)) (entityType : String) : List (List ℕ) :=
  let bucket := bucketOf listed entityType
  if bucket.length < 2 then []
  else UnionFind.connectedComponents bucket.length
    (candidatePairs cfg blockAndScorePairs bucket entityType)

/-- The ops of one bucket. -/
def planBucket (listed : List (Id × EntityColumns Id T V)) (entityType : String) :
    List (PlannedDedupe Id) :=
  let bucket := bucketOf listed entityType
  (componentsOf cfg blockAndScorePairs listed entityType).filterMap fun indices =>
    buildComponentOp cfg newId entityType (candidatePairs cfg blockAndScorePairs bucket entityType)
      listed (membersOf bucket indices)

/-- `sorted(buckets)` -/
def bucketTypes (listed : List (Id × EntityColumns Id T V)) : List String :=
  (((listed.filter fun e => e.2.embedding.isSome).map fun e => e.2.entityType).eraseDups).mergeSort
    fun a b => decide (a ≤ b)

/-- `plan_vectorcypher_dedupe_entities` on the entities it has listed. -/
def planVectorcypherDedupeEntities (entities : List (Id × EntityColumns Id T V)) :
    List (PlannedDedupe Id) :=
  let listed := sortEntities entities
  (bucketTypes listed).flatMap (planBucket cfg newId blockAndScorePairs listed)

/-- What the planner relies on of the kernel: its pairs are of two rows of the bucket, and two
rows have one score. -/
structure ScoresPairs : Prop where
  inside : ∀ embeddings names threshold, names.length = embeddings.length →
    ∀ p ∈ blockAndScorePairs embeddings names threshold,
      p.1 < embeddings.length ∧ p.2.1 < embeddings.length ∧ p.1 ≠ p.2.1
  symmetric : ∀ embeddings names threshold,
    ∀ p ∈ blockAndScorePairs embeddings names threshold,
    ∀ q ∈ blockAndScorePairs embeddings names threshold,
      p.1 = q.1 ∧ p.2.1 = q.2.1 ∨ p.1 = q.2.1 ∧ p.2.1 = q.1 → p.2.2 = q.2.2

/-! ## One component -/

section Component

variable {cfg newId blockAndScorePairs}

theorem pickCanonical_mem {members : List (ℕ × Id × EntityColumns Id T V)} (h : members ≠ []) :
    ∃ c ∈ members, pickCanonical members = some c := by
  cases members with
  | nil => exact absurd rfl h
  | cons m ms =>
      refine ⟨_, ?_, rfl⟩
      -- the best so far is the first member or one of those seen
      have hfold : ∀ (ms : List (ℕ × Id × EntityColumns Id T V)) (best : ℕ × Id × EntityColumns Id T V),
          ms.foldl (fun best e =>
            if toLex (-e.2.2.mentionCount, toLex (e.2.2.createdAt, e.2.1)) <
                toLex (-best.2.2.mentionCount, toLex (best.2.2.createdAt, best.2.1)) then e else best)
            best ∈ best :: ms := by
        intro ms
        induction ms with
        | nil => exact fun best => List.mem_cons_self
        | cons e ms ih =>
            intro best
            rw [List.foldl_cons]
            split
            · exact List.mem_cons_of_mem _ (ih e)
            · rcases List.mem_cons.mp (ih best) with h | h
              · rw [h]
                exact List.mem_cons_self
              · exact List.mem_cons_of_mem _ (List.mem_cons_of_mem _ h)
      exact hfold ms m

theorem pickCanonical_mostMentioned {members : List (ℕ × Id × EntityColumns Id T V)}
    {c : ℕ × Id × EntityColumns Id T V} (h : pickCanonical members = some c) :
    ∀ m ∈ members, m.2.2.mentionCount ≤ c.2.2.mentionCount := by
  cases members with
  | nil => cases h
  | cons m ms =>
      obtain rfl := Option.some.inj h
      -- the best so far has as many mentions as any that was seen
      have hfold : ∀ (ms : List (ℕ × Id × EntityColumns Id T V)) (best : ℕ × Id × EntityColumns Id T V),
          ∀ m ∈ best :: ms, m.2.2.mentionCount ≤ (ms.foldl (fun best e =>
            if toLex (-e.2.2.mentionCount, toLex (e.2.2.createdAt, e.2.1)) <
                toLex (-best.2.2.mentionCount, toLex (best.2.2.createdAt, best.2.1)) then e else best)
            best).2.2.mentionCount := by
        intro ms
        induction ms with
        | nil => simp
        | cons e ms ih =>
            intro best m hm
            rw [List.foldl_cons]
            split
            · rename_i hlt
              rcases List.mem_cons.mp hm with rfl | hm
              · have hmore := Prod.Lex.monotone_fst _ _ hlt.le
                exact (neg_le_neg_iff.mp hmore).trans (ih e e List.mem_cons_self)
              · exact ih e m hm
            · rename_i hnot
              rcases List.mem_cons.mp hm with rfl | hm
              · exact ih m m List.mem_cons_self
              · rcases List.mem_cons.mp hm with rfl | hm
                · have hmore := Prod.Lex.monotone_fst _ _ (not_lt.mp hnot)
                  exact (neg_le_neg_iff.mp hmore).trans (ih best best List.mem_cons_self)
                · exact ih best m (List.mem_cons_of_mem _ hm)
      exact hfold ms m

/-- The canonical entity is the one that is picked. -/
theorem pickCanonical_of_buildComponentOp {entityType : String} {pairs : List (ℕ × ℕ × ℚ)}
    {listed : List (Id × EntityColumns Id T V)} {members : List (ℕ × Id × EntityColumns Id T V)}
    {op : PlannedDedupe Id} (h : buildComponentOp cfg newId entityType pairs listed members = some op) :
    ∃ c, pickCanonical members = some c ∧ c.2.1 = op.keepId := by
  obtain ⟨c, hpick, rfl⟩ := Option.map_eq_some_iff.mp h
  exact ⟨c, hpick, rfl⟩

/-- **What the op of a component says.** -/
theorem buildComponentOp_spec {entityType : String} {pairs : List (ℕ × ℕ × ℚ)}
    {listed : List (Id × EntityColumns Id T V)} {members : List (ℕ × Id × EntityColumns Id T V)}
    {op : PlannedDedupe Id} (hids : (members.map fun m => m.2.1).Nodup)
    (h : buildComponentOp cfg newId entityType pairs listed members = some op) :
    op.entityType = entityType ∧ op.allIds.Perm (members.map fun m => m.2.1) ∧
      (∀ m ∈ op.op.merges, m.canonicalId = op.keepId) ∧
      (op.op.merges.map MergeEntry.absorbedId =
        if op.decision = .planned then op.dropIds else []) ∧
      (op.decision = .planned → ∃ c ∈ members, c.2.1 = op.keepId ∧
        ∀ e ∈ listed, e.2.name = c.2.2.name → e.2.entityType = entityType → e.1 ∈ op.allIds) := by
  obtain ⟨c, hpick, rfl⟩ := Option.map_eq_some_iff.mp h
  have hne : members ≠ [] := by
    rintro rfl
    cases hpick
  obtain ⟨c', hc, hpick'⟩ := pickCanonical_mem hne
  rw [hpick, Option.some.injEq] at hpick'
  subst hpick'
  have hperm : (c.2.1 :: (members.filter fun m => m.2.1 ≠ c.2.1).map fun m => m.2.1).Perm
      (members.map fun m => m.2.1) := by
    rw [List.perm_ext_iff_of_nodup _ hids]
    · intro x
      simp only [List.mem_cons, List.mem_map, List.mem_filter, decide_eq_true_eq]
      constructor
      · rintro (rfl | ⟨m, ⟨hm, -⟩, rfl⟩)
        · exact ⟨c, hc, rfl⟩
        · exact ⟨m, hm, rfl⟩
      · rintro ⟨m, hm, rfl⟩
        by_cases hmc : m.2.1 = c.2.1
        · exact .inl hmc
        · exact .inr ⟨m, ⟨hm, hmc⟩, rfl⟩
    · rw [List.nodup_cons]
      refine ⟨?_, hids.sublist (List.filter_sublist.map _)⟩
      intro hmem
      obtain ⟨m, hm, heq⟩ := List.mem_map.mp hmem
      exact of_decide_eq_true (List.mem_filter.mp hm).2 heq
  refine ⟨rfl, hperm, ?_, ?_, ?_⟩
  · intro m hm
    simp only at hm
    split at hm
    · cases hm
    · obtain ⟨e, -, rfl⟩ := List.mem_map.mp hm
      rfl
  · simp only
    split
    · simp
    · rw [List.map_map]
      rfl
  · intro hplanned
    refine ⟨c, hc, rfl, fun e he hname htype => hperm.mem_iff.mpr ?_⟩
    by_contra hout
    -- an entity outside with the name and the type is a collision
    have hcol : (listed.find? fun e => e.2.name = c.2.2.name && e.2.entityType = entityType &&
        !(members.map fun m => m.2.1).contains e.1).isSome = true := by
      rw [List.find?_isSome]
      exact ⟨e, he, by simpa [hname, htype] using hout⟩
    simp only [hcol] at hplanned
    cases hplanned

end Component

/-! ## One bucket -/

section Bucket

variable {cfg newId blockAndScorePairs} {listed : List (Id × EntityColumns Id T V)} {entityType : String}

/-- The ids of the entities at the indices. -/
def idsAt (bucket : List (Id × EntityColumns Id T V)) (indices : List ℕ) : List Id :=
  indices.filterMap fun i => bucket[i]?.map Prod.fst

omit [LinearOrder Id] [LinearOrder T] in
theorem ids_membersOf (bucket : List (Id × EntityColumns Id T V)) (indices : List ℕ) :
    (membersOf bucket indices).map (fun m => m.2.1) = idsAt bucket indices := by
  rw [membersOf, idsAt, List.map_filterMap]
  congr
  funext i
  cases bucket[i]? with
  | none => rfl
  | some e => rfl

omit [LinearOrder Id] [LinearOrder T] in
/-- Different indices have different entities. -/
theorem nodup_idsAt {bucket : List (Id × EntityColumns Id T V)} (hb : (bucket.map Prod.fst).Nodup)
    {indices : List ℕ} (hi : indices.Nodup) : (idsAt bucket indices).Nodup := by
  apply hi.filterMap
  intro i j x hxi hxj
  rw [Option.mem_def, ← List.getElem?_map] at hxi hxj
  have hlt : i < (bucket.map Prod.fst).length := by
    by_contra hge
    rw [List.getElem?_eq_none (not_lt.mp hge)] at hxi
    cases hxi
  exact (List.getElem?_inj hlt hb).mp (hxi.trans hxj.symm)

omit [LinearOrder Id] [LinearOrder T] in
theorem mem_idsAt {bucket : List (Id × EntityColumns Id T V)} {indices : List ℕ} {x : Id}
    (h : x ∈ idsAt bucket indices) : ∃ e ∈ bucket, e.1 = x := by
  obtain ⟨i, -, hi⟩ := List.mem_filterMap.mp h
  obtain ⟨e, he, rfl⟩ := Option.map_eq_some_iff.mp hi
  exact ⟨e, List.mem_of_getElem? he, rfl⟩

omit [LinearOrder Id] [LinearOrder T] in
theorem candidatePairs_inside (hk : ScoresPairs blockAndScorePairs) :
    ∀ p ∈ candidatePairs cfg blockAndScorePairs (bucketOf listed entityType) entityType,
      p.1 < (bucketOf listed entityType).length ∧ p.2.1 < (bucketOf listed entityType).length ∧
        p.1 ≠ p.2.1 := by
  have hlen : ∀ bucket : List (Id × EntityColumns Id T V),
      (∀ e ∈ bucket, e.2.embedding.isSome = true) →
      (bucket.filterMap fun e => e.2.embedding).length = bucket.length := by
    intro bucket
    induction bucket with
    | nil => exact fun _ => rfl
    | cons e es ih =>
        intro hsome
        obtain ⟨v, hv⟩ := Option.isSome_iff_exists.mp (hsome e List.mem_cons_self)
        have hrest := ih fun e he => hsome e (List.mem_cons_of_mem _ he)
        simp only [List.filterMap_cons, hv, List.length_cons, hrest]
  replace hlen := hlen (bucketOf listed entityType) fun e he => by
    have hboth := (List.mem_filter.mp he).2
    rw [Bool.and_eq_true] at hboth
    exact hboth.2
  intro p hp
  rw [candidatePairs, List.mem_mergeSort] at hp
  have hin := hk.inside _ _ _ (by rw [List.length_map, hlen]) p hp
  rw [hlen] at hin
  exact hin

omit [LinearOrder Id] [LinearOrder T] in
/-- **The components of a bucket are those of its candidate graph.** -/
theorem mem_componentsOf (hk : ScoresPairs blockAndScorePairs) {members : List ℕ} :
    members ∈ componentsOf cfg blockAndScorePairs listed entityType ↔
      members.Pairwise (· < ·) ∧ 2 ≤ members.length ∧
      ∃ C : (UnionFind.candidateGraph (candidatePairs cfg blockAndScorePairs
        (bucketOf listed entityType) entityType)).ConnectedComponent, ∀ j, j ∈ members ↔ j ∈ C.supp := by
  have hin := @candidatePairs_inside _ _ _ cfg blockAndScorePairs listed entityType hk
  rw [← UnionFind.mem_connectedComponents hin, componentsOf]
  split
  · rename_i hshort
    -- one entity makes no pair
    have hnone : candidatePairs cfg blockAndScorePairs (bucketOf listed entityType) entityType = [] := by
      rw [List.eq_nil_iff_forall_not_mem]
      intro p hp
      obtain ⟨h₁, h₂, hne⟩ := hin p hp
      omega
    rw [hnone, UnionFind.connectedComponents_nil]
  · exact Iff.rfl

omit [LinearOrder Id] [LinearOrder T] in
theorem flatten_componentsOf_nodup (hk : ScoresPairs blockAndScorePairs) :
    (componentsOf cfg blockAndScorePairs listed entityType).flatten.Nodup := by
  have hin := @candidatePairs_inside _ _ _ cfg blockAndScorePairs listed entityType hk
  rw [componentsOf]
  split
  · exact List.nodup_nil
  · have hperm := UnionFind.flatten_connectedComponents_perm
      fun p hp => ⟨(hin p hp).1, (hin p hp).2.1⟩
    exact hperm.nodup_iff.mpr ((UnionFind.pairwise_touched _).imp ne_of_lt)

omit [LinearOrder Id] [LinearOrder T] in
/-- The members of a component are indices of the bucket. -/
theorem lt_of_mem_componentsOf (hk : ScoresPairs blockAndScorePairs) {indices : List ℕ}
    (h : indices ∈ componentsOf cfg blockAndScorePairs listed entityType) {i : ℕ} (hi : i ∈ indices) :
    i < (bucketOf listed entityType).length := by
  have hin := @candidatePairs_inside _ _ _ cfg blockAndScorePairs listed entityType hk
  rw [componentsOf] at h
  split at h
  · cases h
  · have htouched := UnionFind.touched_of_mem_connectedComponents
      (fun p hp => ⟨(hin p hp).1, (hin p hp).2.1⟩) h hi
    obtain ⟨p, hp, rfl | rfl⟩ := UnionFind.mem_touched.mp htouched
    · exact (hin p hp).1
    · exact (hin p hp).2.1

/-- **Every component has its op**, for the entities at its indices. -/
theorem buildComponentOp_of_component (hk : ScoresPairs blockAndScorePairs)
    (hids : (listed.map Prod.fst).Nodup) {indices : List ℕ}
    (h : indices ∈ componentsOf cfg blockAndScorePairs listed entityType) :
    ∃ op, buildComponentOp cfg newId entityType
        (candidatePairs cfg blockAndScorePairs (bucketOf listed entityType) entityType) listed
        (membersOf (bucketOf listed entityType) indices) = some op ∧
      op.allIds.Perm (idsAt (bucketOf listed entityType) indices) := by
  have hbucket : ((bucketOf listed entityType).map Prod.fst).Nodup :=
    hids.sublist (List.filter_sublist.map _)
  obtain ⟨horder, hlen, -⟩ := (mem_componentsOf hk).mp h
  have hnodup := nodup_idsAt hbucket (horder.imp ne_of_lt)
  obtain ⟨i, hi⟩ : ∃ i, i ∈ indices := by
    cases indices with
    | nil => exact absurd hlen (by decide)
    | cons i is => exact ⟨i, List.mem_cons_self⟩
  have hlt := lt_of_mem_componentsOf hk h hi
  have hne : membersOf (bucketOf listed entityType) indices ≠ [] := by
    intro hnil
    have hmem : (i, (bucketOf listed entityType)[i]) ∈ membersOf (bucketOf listed entityType) indices :=
      List.mem_filterMap.mpr ⟨i, hi, by rw [List.getElem?_eq_getElem hlt]; rfl⟩
    rw [hnil] at hmem
    cases hmem
  obtain ⟨c, -, hpick⟩ := pickCanonical_mem hne
  obtain ⟨op, hop⟩ : ∃ op, buildComponentOp cfg newId entityType
      (candidatePairs cfg blockAndScorePairs (bucketOf listed entityType) entityType) listed
      (membersOf (bucketOf listed entityType) indices) = some op := by
    rw [buildComponentOp, hpick]
    exact ⟨_, rfl⟩
  rw [← ids_membersOf] at hnodup ⊢
  exact ⟨op, hop, (buildComponentOp_spec hnodup hop).2.1⟩

omit [LinearOrder Id] [LinearOrder T] in
theorem perm_flatMap_filterMap {C O : Type} {build : C → Option O} {ids : O → List Id}
    {f : C → List Id} {cs : List C}
    (h : ∀ c ∈ cs, ∃ op, build c = some op ∧ (ids op).Perm (f c)) :
    ((cs.filterMap build).flatMap ids).Perm (cs.flatMap f) := by
  induction cs with
  | nil => exact List.Perm.nil
  | cons c cs ih =>
      obtain ⟨op, hop, hperm⟩ := h c List.mem_cons_self
      rw [List.filterMap_cons_some hop, List.flatMap_cons, List.flatMap_cons]
      exact hperm.append (ih fun c hc => h c (List.mem_cons_of_mem _ hc))

/-- The entities of the ops of a bucket are those of its components. -/
theorem planBucket_allIds_perm (hk : ScoresPairs blockAndScorePairs)
    (hids : (listed.map Prod.fst).Nodup) :
    ((planBucket cfg newId blockAndScorePairs listed entityType).flatMap PlannedDedupe.allIds).Perm
      (idsAt (bucketOf listed entityType)
        (componentsOf cfg blockAndScorePairs listed entityType).flatten) := by
  have hflat : idsAt (bucketOf listed entityType)
      (componentsOf cfg blockAndScorePairs listed entityType).flatten =
      (componentsOf cfg blockAndScorePairs listed entityType).flatMap
        (idsAt (bucketOf listed entityType)) := by
    induction componentsOf cfg blockAndScorePairs listed entityType with
    | nil => rfl
    | cons c cs ih =>
        rw [List.flatten_cons, List.flatMap_cons, ← ih, idsAt, List.filterMap_append]
        rfl
  rw [hflat]
  exact perm_flatMap_filterMap fun c hc => buildComponentOp_of_component hk hids hc

/-- An op of a bucket is that of one of its components. -/
theorem mem_planBucket (hk : ScoresPairs blockAndScorePairs) (hids : (listed.map Prod.fst).Nodup)
    {op : PlannedDedupe Id} (h : op ∈ planBucket cfg newId blockAndScorePairs listed entityType) :
    ∃ indices ∈ componentsOf cfg blockAndScorePairs listed entityType,
      buildComponentOp cfg newId entityType
        (candidatePairs cfg blockAndScorePairs (bucketOf listed entityType) entityType) listed
        (membersOf (bucketOf listed entityType) indices) = some op ∧
      ((membersOf (bucketOf listed entityType) indices).map fun m => m.2.1).Nodup := by
  obtain ⟨indices, hin, hop⟩ := List.mem_filterMap.mp h
  refine ⟨indices, hin, hop, ?_⟩
  rw [ids_membersOf]
  exact nodup_idsAt (hids.sublist (List.filter_sublist.map _))
    (((mem_componentsOf hk).mp hin).1.imp ne_of_lt)

end Bucket

/-! ## The whole plan -/

section Plan

variable {cfg newId blockAndScorePairs} {entities : List (Id × EntityColumns Id T V)}

omit [LinearOrder T] in
theorem perm_sortEntities (entities : List (Id × EntityColumns Id T V)) :
    (sortEntities entities).Perm entities := List.mergeSort_perm _ _

omit [LinearOrder T] in
theorem ids_sortEntities (hids : (entities.map Prod.fst).Nodup) :
    ((sortEntities entities).map Prod.fst).Nodup :=
  ((perm_sortEntities entities).map Prod.fst).nodup_iff.mpr hids

omit [LinearOrder Id] [LinearOrder T] in
theorem mem_bucketTypes {listed : List (Id × EntityColumns Id T V)} {entityType : String} :
    entityType ∈ bucketTypes listed ↔ ∃ e ∈ bucketOf listed entityType, True := by
  simp only [bucketTypes, bucketOf, List.mem_mergeSort, List.mem_eraseDups, List.mem_map,
    List.mem_filter, Bool.and_eq_true, decide_eq_true_eq, and_true]
  constructor
  · rintro ⟨e, ⟨he, hemb⟩, rfl⟩
    exact ⟨e, he, rfl, hemb⟩
  · rintro ⟨e, he, htype, hemb⟩
    exact ⟨e, ⟨he, hemb⟩, htype⟩

/-- **No entity is in two ops**, or twice in one. -/
theorem allIds_nodup (hk : ScoresPairs blockAndScorePairs) (hids : (entities.map Prod.fst).Nodup) :
    ((planVectorcypherDedupeEntities cfg newId blockAndScorePairs entities).flatMap
      PlannedDedupe.allIds).Nodup := by
  have hlisted := ids_sortEntities hids
  unfold planVectorcypherDedupeEntities
  simp only
  rw [List.flatMap_assoc, List.nodup_flatMap]
  constructor
  · intro t _
    rw [(planBucket_allIds_perm hk hlisted).nodup_iff]
    exact nodup_idsAt (hlisted.sublist (List.filter_sublist.map _)) (flatten_componentsOf_nodup hk)
  · have htypes : (bucketTypes (sortEntities entities)).Nodup :=
      (List.mergeSort_perm _ _).nodup_iff.mpr (Grouping.nodup_eraseDups _)
    apply htypes.imp
    intro t t' hne x hx hx'
    -- the entity would be of both types
    obtain ⟨e, he, rfl⟩ := mem_idsAt ((planBucket_allIds_perm hk hlisted).mem_iff.mp hx)
    obtain ⟨e', he', hid⟩ := mem_idsAt ((planBucket_allIds_perm hk hlisted).mem_iff.mp hx')
    obtain ⟨hl, ht⟩ := List.mem_filter.mp he
    obtain ⟨hl', ht'⟩ := List.mem_filter.mp he'
    have hee := List.inj_on_of_nodup_map hlisted hl' hl hid
    subst hee
    simp only [Bool.and_eq_true, decide_eq_true_eq] at ht ht'
    exact hne (ht.1.symm.trans ht'.1)

omit [LinearOrder Id] [LinearOrder T] in
theorem candidatePairs_perm {blockAndScorePairs' : List V → List String → ℚ → List (ℕ × ℕ × ℚ)}
    (hk : ScoresPairs blockAndScorePairs)
    (hperm : ∀ embeddings names threshold, (blockAndScorePairs embeddings names threshold).Perm
      (blockAndScorePairs' embeddings names threshold))
    (bucket : List (Id × EntityColumns Id T V)) (entityType : String) :
    candidatePairs cfg blockAndScorePairs bucket entityType =
      candidatePairs cfg blockAndScorePairs' bucket entityType := by
  apply SortBy.mergeSort_eq_of_perm _ (hperm _ _ _)
  intro p hp q hq heq
  obtain ⟨h₁, h₂⟩ := Prod.mk.inj (toLex.injective heq)
  have hscore := hk.symmetric _ _ _ p hp q hq (.inl ⟨h₁, h₂⟩)
  exact Prod.ext h₁ (Prod.ext h₂ hscore)

/-- **Neither the order of the entities nor that of the pairs matters.** -/
theorem planVectorcypherDedupeEntities_perm
    {blockAndScorePairs' : List V → List String → ℚ → List (ℕ × ℕ × ℚ)} {newId' : Id → Id}
    {entities' : List (Id × EntityColumns Id T V)} (hk : ScoresPairs blockAndScorePairs)
    (hids : (entities.map Prod.fst).Nodup) (hentities : entities.Perm entities')
    (hpairs : ∀ embeddings names threshold, (blockAndScorePairs embeddings names threshold).Perm
      (blockAndScorePairs' embeddings names threshold)) :
    (planVectorcypherDedupeEntities cfg newId' blockAndScorePairs' entities').map
        PlannedDedupe.outcome =
      (planVectorcypherDedupeEntities cfg newId blockAndScorePairs entities).map
        PlannedDedupe.outcome := by
  have hsort : sortEntities entities = sortEntities entities' := by
    apply SortBy.mergeSort_eq_of_perm _ hentities
    intro a ha b hb heq
    apply List.inj_on_of_nodup_map hids ha hb
    exact (Prod.mk.inj (toLex.injective (Prod.mk.inj (toLex.injective heq)).2)).2
  have hcandidates := @candidatePairs_perm Id T _ cfg _ _ hk hpairs
  have hbuild : ∀ t pairs listed (members : List (ℕ × Id × EntityColumns Id T V)),
      (buildComponentOp cfg newId' t pairs listed members).map PlannedDedupe.outcome =
        (buildComponentOp cfg newId t pairs listed members).map PlannedDedupe.outcome := by
    intro t pairs listed members
    unfold buildComponentOp
    rw [Option.map_map, Option.map_map]
    rfl
  unfold planVectorcypherDedupeEntities
  simp only
  rw [← hsort, List.map_flatMap, List.map_flatMap]
  congr
  funext t
  unfold planBucket componentsOf
  simp only
  rw [← hcandidates, List.map_filterMap, List.map_filterMap]
  congr
  funext indices
  exact hbuild _ _ _ _

variable (cfg newId blockAndScorePairs entities)

/-- What a plan over the entities must meet. -/
structure Partitions (ops : List (PlannedDedupe Id)) : Prop where
  /-- The components of each bucket are the connected components of its candidate graph. -/
  components : ∀ t members, members ∈ componentsOf cfg blockAndScorePairs (sortEntities entities) t ↔
    members.Pairwise (· < ·) ∧ 2 ≤ members.length ∧
      ∃ C : (UnionFind.candidateGraph (candidatePairs cfg blockAndScorePairs
        (bucketOf (sortEntities entities) t) t)).ConnectedComponent, ∀ j, j ∈ members ↔ j ∈ C.supp
  /-- Each component has an op. -/
  covered : ∀ t, ∀ members ∈ componentsOf cfg blockAndScorePairs (sortEntities entities) t,
    ∃ op ∈ ops, op.entityType = t ∧
      op.allIds.Perm (idsAt (bucketOf (sortEntities entities) t) members)
  /-- Each op has a component. -/
  ofComponent : ∀ op ∈ ops,
    ∃ members ∈ componentsOf cfg blockAndScorePairs (sortEntities entities) op.entityType,
      op.allIds.Perm (idsAt (bucketOf (sortEntities entities) op.entityType) members)
  absorbedOnce : (ops.flatMap PlannedDedupe.dropIds).Nodup
  canonicalKept : ∀ op ∈ ops, ∀ op' ∈ ops, op.keepId ∉ op'.dropIds
  merges : ∀ op ∈ ops, (∀ m ∈ op.op.merges, m.canonicalId = op.keepId) ∧
    op.op.merges.map MergeEntry.absorbedId = if op.decision = .planned then op.dropIds else []
  /-- The canonical name and type of a planned op are those of no entity outside it. -/
  nameFree : ∀ op ∈ ops, op.decision = .planned → ∀ c ∈ entities, c.1 = op.keepId →
    ∀ e ∈ entities, e.2.name = c.2.name → e.2.entityType = c.2.entityType → e.1 ∈ op.allIds

variable {cfg newId blockAndScorePairs entities}

/-- Every op is the op of a component of its bucket. -/
theorem component_of_mem_plan {op : PlannedDedupe Id} (hk : ScoresPairs blockAndScorePairs)
    (hids : (entities.map Prod.fst).Nodup)
    (h : op ∈ planVectorcypherDedupeEntities cfg newId blockAndScorePairs entities) :
    ∃ indices ∈ componentsOf cfg blockAndScorePairs (sortEntities entities) op.entityType,
      buildComponentOp cfg newId op.entityType
        (candidatePairs cfg blockAndScorePairs (bucketOf (sortEntities entities) op.entityType)
          op.entityType) (sortEntities entities)
        (membersOf (bucketOf (sortEntities entities) op.entityType) indices) = some op ∧
      ((membersOf (bucketOf (sortEntities entities) op.entityType) indices).map
        fun m => m.2.1).Nodup := by
  obtain ⟨t, -, ht⟩ := List.mem_flatMap.mp h
  obtain ⟨indices, hin, hbuild, hnodup⟩ := mem_planBucket hk (ids_sortEntities hids) ht
  have htype := (buildComponentOp_spec hnodup hbuild).1
  subst htype
  exact ⟨indices, hin, hbuild, hnodup⟩

omit [LinearOrder T] in
/-- The members of an op are listed entities with embeddings. -/
theorem mem_of_mem_membersOf {indices : List ℕ} {entityType : String} {m : ℕ × Id × EntityColumns Id T V}
    (h : m ∈ membersOf (bucketOf (sortEntities entities) entityType) indices) :
    m.2 ∈ entities ∧ m.2.2.embedding.isSome = true := by
  obtain ⟨i, -, hi⟩ := List.mem_filterMap.mp h
  obtain ⟨b, hb, rfl⟩ := Option.map_eq_some_iff.mp hi
  obtain ⟨hbl, hbt⟩ := List.mem_filter.mp (List.mem_of_getElem? hb)
  rw [Bool.and_eq_true] at hbt
  exact ⟨(perm_sortEntities entities).mem_iff.mp hbl, hbt.2⟩

/-- **The canonical entity of an op has the most mentions of its members.** -/
theorem keepId_mostMentioned {op : PlannedDedupe Id} (hk : ScoresPairs blockAndScorePairs)
    (hids : (entities.map Prod.fst).Nodup)
    (h : op ∈ planVectorcypherDedupeEntities cfg newId blockAndScorePairs entities) :
    ∃ c ∈ entities, c.1 = op.keepId ∧
      ∀ e ∈ entities, e.1 ∈ op.allIds → e.2.mentionCount ≤ c.2.mentionCount := by
  obtain ⟨indices, -, hbuild, hnodup⟩ := component_of_mem_plan hk hids h
  have hperm := (buildComponentOp_spec hnodup hbuild).2.1
  obtain ⟨c, hpick, hkeep⟩ := pickCanonical_of_buildComponentOp hbuild
  have hne : membersOf (bucketOf (sortEntities entities) op.entityType) indices ≠ [] := by
    intro hnil
    rw [hnil] at hpick
    cases hpick
  obtain ⟨c', hc, hpick'⟩ := pickCanonical_mem hne
  obtain rfl : c = c' := Option.some.inj (hpick.symm.trans hpick')
  refine ⟨c.2, (mem_of_mem_membersOf hc).1, hkeep, ?_⟩
  intro e he hall
  obtain ⟨m, hm, hid⟩ := List.mem_map.mp (hperm.mem_iff.mp hall)
  obtain rfl : m.2 = e := List.inj_on_of_nodup_map hids (mem_of_mem_membersOf hm).1 he hid
  exact pickCanonical_mostMentioned hpick m hm

/-- The members of an op are listed, with embeddings, and one is absorbed at least. -/
theorem members_of_mem_plan {op : PlannedDedupe Id} (hk : ScoresPairs blockAndScorePairs)
    (hids : (entities.map Prod.fst).Nodup)
    (h : op ∈ planVectorcypherDedupeEntities cfg newId blockAndScorePairs entities) :
    (∀ x ∈ op.allIds, ∃ e ∈ entities, e.1 = x ∧ e.2.embedding.isSome = true) ∧ op.dropIds ≠ [] := by
  obtain ⟨indices, hin, hbuild, hnodup⟩ := component_of_mem_plan hk hids h
  have hperm := (buildComponentOp_spec hnodup hbuild).2.1
  constructor
  · intro x hx
    obtain ⟨m, hm, rfl⟩ := List.mem_map.mp (hperm.mem_iff.mp hx)
    exact ⟨m.2, (mem_of_mem_membersOf hm).1, rfl, (mem_of_mem_membersOf hm).2⟩
  · intro hnone
    have hlen := hperm.length_eq
    rw [PlannedDedupe.allIds, hnone, List.length_map, membersOf, List.length_filterMap_eq_countP,
      List.countP_eq_length.mpr] at hlen
    · have htwo := ((mem_componentsOf hk).mp hin).2.1
      simp only [List.length_singleton] at hlen
      omega
    · intro i hi
      rw [List.getElem?_eq_getElem (lt_of_mem_componentsOf hk hin hi)]
      rfl

theorem partitions_plan (hk : ScoresPairs blockAndScorePairs) (hids : (entities.map Prod.fst).Nodup) :
    Partitions cfg blockAndScorePairs entities
      (planVectorcypherDedupeEntities cfg newId blockAndScorePairs entities) := by
  have hlisted := ids_sortEntities hids
  have hall := @allIds_nodup _ _ _ _ _ cfg newId blockAndScorePairs entities hk hids
  have hop := fun op h => @component_of_mem_plan _ _ _ _ _ cfg newId blockAndScorePairs entities op hk hids h
  rw [List.nodup_flatMap] at hall
  refine ⟨fun t members => mem_componentsOf hk, ?_, ?_, ?_, ?_, ?_, ?_⟩
  · intro t members hmem
    obtain ⟨op, hbuild, hperm⟩ := @buildComponentOp_of_component _ _ _ _ _ _ newId _ _ _ hk hlisted _ hmem
    have hin : op ∈ planBucket cfg newId blockAndScorePairs (sortEntities entities) t :=
      List.mem_filterMap.mpr ⟨members, hmem, hbuild⟩
    have hnonempty : t ∈ bucketTypes (sortEntities entities) := by
      obtain ⟨e, he, -⟩ := mem_idsAt (hperm.mem_iff.mp List.mem_cons_self)
      exact mem_bucketTypes.mpr ⟨e, he, trivial⟩
    refine ⟨op, List.mem_flatMap.mpr ⟨t, hnonempty, hin⟩, ?_, hperm⟩
    obtain ⟨c, -, rfl⟩ := Option.map_eq_some_iff.mp hbuild
    rfl
  · intro op h
    obtain ⟨indices, hin, hbuild, hnodup⟩ := hop op h
    refine ⟨indices, hin, ?_⟩
    rw [← ids_membersOf]
    exact (buildComponentOp_spec hnodup hbuild).2.1
  · rw [List.nodup_flatMap]
    refine ⟨fun op h => (List.nodup_cons.mp (hall.1 op h)).2, hall.2.imp ?_⟩
    intro op op' hdisjoint x hx hx'
    exact hdisjoint (List.mem_cons_of_mem _ hx) (List.mem_cons_of_mem _ hx')
  · intro op h op' h' hmem
    by_cases heq : op = op'
    · subst heq
      exact (List.nodup_cons.mp (hall.1 op h)).1 hmem
    · have hsymm : Std.Symm (Function.onFun List.Disjoint (@PlannedDedupe.allIds Id)) :=
        ⟨fun _ _ hd => hd.symm⟩
      exact hall.2.forall h h' heq List.mem_cons_self (List.mem_cons_of_mem _ hmem)
  · intro op h
    obtain ⟨indices, -, hbuild, hnodup⟩ := hop op h
    obtain ⟨-, -, hcanonical, habsorbed, -⟩ := buildComponentOp_spec hnodup hbuild
    exact ⟨hcanonical, habsorbed⟩
  · intro op h hplanned c hc hkeep e he hname htype
    obtain ⟨indices, -, hbuild, hnodup⟩ := hop op h
    obtain ⟨-, -, -, -, hfree⟩ := buildComponentOp_spec hnodup hbuild
    obtain ⟨m, hm, hmkeep, hfree⟩ := hfree hplanned
    obtain ⟨i, -, hi⟩ := List.mem_filterMap.mp hm
    obtain ⟨b, hb, rfl⟩ := Option.map_eq_some_iff.mp hi
    obtain ⟨hbl, hbt⟩ := List.mem_filter.mp (List.mem_of_getElem? hb)
    rw [Bool.and_eq_true, decide_eq_true_eq] at hbt
    -- the canonical entity is the row of its id
    have hbc : b = c := List.inj_on_of_nodup_map hids ((perm_sortEntities entities).mem_iff.mp hbl) hc
      (hmkeep.trans hkeep.symm)
    subst hbc
    exact hfree e ((perm_sortEntities entities).mem_iff.mpr he) hname (htype.trans hbt.1)

/-- **The plan of a dedupe partitions the entities**, and it is one plan for every order of the
entities and of the pairs. -/
theorem dedupePlan_spec (cfg : DreamPlanConfig) (newId newId' : Id → Id)
    (blockAndScorePairs blockAndScorePairs' : List V → List String → ℚ → List (ℕ × ℕ × ℚ))
    (entities entities' : List (Id × EntityColumns Id T V)) (hk : ScoresPairs blockAndScorePairs)
    (hids : (entities.map Prod.fst).Nodup) (hentities : entities.Perm entities')
    (hpairs : ∀ embeddings names threshold, (blockAndScorePairs embeddings names threshold).Perm
      (blockAndScorePairs' embeddings names threshold)) :
    Partitions cfg blockAndScorePairs entities
        (planVectorcypherDedupeEntities cfg newId blockAndScorePairs entities) ∧
      (planVectorcypherDedupeEntities cfg newId' blockAndScorePairs' entities').map
          PlannedDedupe.outcome =
        (planVectorcypherDedupeEntities cfg newId blockAndScorePairs entities).map
          PlannedDedupe.outcome :=
  ⟨partitions_plan hk hids, planVectorcypherDedupeEntities_perm hk hids hentities hpairs⟩

end Plan

/-- Rows with one embedding are a pair. -/
def equalPairs (embeddings : List ℕ) (_names : List String) (_threshold : ℚ) : List (ℕ × ℕ × ℚ) :=
  (List.range embeddings.length).flatMap fun i =>
    ((List.range embeddings.length).filter fun j =>
      decide (i < j) && decide (embeddings[i]? = embeddings[j]?)).map fun j => (i, j, 1)

theorem scoresPairs_equalPairs : ScoresPairs equalPairs := by
  have hmem : ∀ {embeddings names threshold p}, p ∈ equalPairs embeddings names threshold →
      p.1 < embeddings.length ∧ p.2.1 < embeddings.length ∧ p.1 < p.2.1 ∧ p.2.2 = 1 := by
    intro embeddings names threshold p hp
    obtain ⟨i, hi, hp⟩ := List.mem_flatMap.mp hp
    obtain ⟨j, hj, rfl⟩ := List.mem_map.mp hp
    obtain ⟨hj, hij⟩ := List.mem_filter.mp hj
    rw [Bool.and_eq_true, decide_eq_true_eq] at hij
    exact ⟨List.mem_range.mp hi, List.mem_range.mp hj, hij.1, rfl⟩
  constructor
  · intro embeddings names threshold _ p hp
    obtain ⟨h₁, h₂, hlt, -⟩ := hmem hp
    exact ⟨h₁, h₂, hlt.ne⟩
  · intro embeddings names threshold p hp q hq _
    rw [(hmem hp).2.2.2, (hmem hq).2.2.2]

/-- The thresholds of a dedupe alone. -/
def dedupeOnly : DreamPlanConfig where
  wanted := fun kind => kind == .vectorcypherDedupeEntities
  pruneTargetPredicates := []
  pruneConfidenceThreshold := 0
  dedupeDefaultThreshold := 0
  dedupePerTypeThresholds := []
  gcMinDead := 1
  clusteringCosineThreshold := 0
  clusteringWindow := 0
  band := ⟨0, 0⟩

/-- Two people with one embedding, and one with another. -/
def threePeople : List (ℕ × EntityColumns ℕ ℕ ℕ) :=
  [(1, ⟨"Ada", "PERSON", 3, 0, some 7, []⟩), (2, ⟨"Ada L.", "PERSON", 1, 0, some 7, []⟩),
    (3, ⟨"Bob", "PERSON", 1, 0, some 9, []⟩)]

theorem dedupePlan_threePeople :
    Partitions dedupeOnly equalPairs threePeople
        (planVectorcypherDedupeEntities dedupeOnly id equalPairs threePeople) ∧
      (planVectorcypherDedupeEntities dedupeOnly (· + 1) equalPairs threePeople.reverse).map
          PlannedDedupe.outcome =
        (planVectorcypherDedupeEntities dedupeOnly id equalPairs threePeople).map
          PlannedDedupe.outcome :=
  dedupePlan_spec dedupeOnly id (· + 1) equalPairs equalPairs threePeople threePeople.reverse
    scoresPairs_equalPairs (by decide) threePeople.reverse_perm.symm fun _ _ _ => List.Perm.refl _

end DedupePlan

end Khora
