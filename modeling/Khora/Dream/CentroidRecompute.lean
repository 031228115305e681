import Khora.Dream.DedupePlan
import Khora.Lib.TopK

/-!
# Centroids after a dedupe

`plan_dream` feeds the merges of its dedupe ops to `vectorcypher/centroid_recompute.py`, which chooses the entity of
each cluster that gets the centroid on its own: the dedupe by mentions, age and id, the recompute by mentions alone,
in the order of `list_entities`.  It does so before the verifier of the dedupe has deferred anything.

* `mem_applyCentroids` — the ops that rewrite an embedding: those before the first `re_embed`, which raises.
* `centroid_exact` — when the recompute follows the dedupe.
* `tiedMentions_diverge` — two entities with as many mentions: the centroid goes to the retired one.
-/

namespace Khora

namespace CentroidRecompute

open VectorCypherStore DedupePlan

/-- A vector that is stored has an entry. -/
abbrev Embedding := { v : List ℚ // v ≠ [] }

structure CentroidConfig where
  levThreshold : ℤ
  minIntraClusterCosine : ℚ

/-- `rapidfuzz` and `khora._accel`. -/
structure CentroidKernels where
  levenshtein : String → String → ℕ
  pairwiseCosines : List Embedding → List ℚ
  normalize : Embedding → Embedding

inductive CentroidDecision (Id : Type) where
  | skipSingleton
  | skipMultimodal (canonicalEntityId : Id)
  | centroid (canonicalEntityId : Id) (newEmbeddingVector : Embedding) (sourceCount : ℕ)
  | reEmbed (canonicalEntityId : Id) (newEmbeddingText : String) (sourceCount : ℕ)

structure CentroidOp (Id : Type) where
  clusterSize : ℕ
  memberIds : List Id
  decision : CentroidDecision Id

variable {Id T : Type}

/-! ## Plan -/

-- the mentions are integers, whose order as a complete lattice is not computable
local instance intPartialOrder : PartialOrder ℤ := LinearOrder.toPartialOrder

section Plan

/-- An entry of the weighted mean; members without mentions do not count. -/
def meanEntry (sources : List (Embedding × ℤ)) (k : ℕ) : ℚ :=
  let total := (sources.map Prod.snd).sum
  let totalWeight : ℚ := if total = 0 then 1 else total
  ((sources.filter fun e => 0 < e.2).map fun e => (e.2 : ℚ) / totalWeight * e.1.val.getD k 0).sum

/-- `_weighted_centroid`; `embeddings[0]` raises if there is none. -/
def weightedCentroid (normalize : Embedding → Embedding) (sources : List (Embedding × ℤ)) : Option Embedding :=
  sources.head?.map fun first =>
    normalize ⟨(List.range first.1.val.length).map (meanEntry sources), by simp [first.1.property]⟩

variable (cfg : CentroidConfig) (kernels : CentroidKernels)

/-- `_min_pairwise_cosine` -/
def minPairwiseCosine (embeddings : List Embedding) : ℚ :=
  if embeddings.length < 2 then 1 else ((kernels.pairwiseCosines embeddings).min?).getD 1

/-- `_max_pairwise_lev_distance` -/
def maxPairwiseLevDistance : List String → ℕ
  | [] => 0
  | name :: names => max ((names.map (kernels.levenshtein name)).foldl max 0) (maxPairwiseLevDistance names)

/-- The embeddings of the members, with their weights. -/
def sourcesOf (members : List (Id × EntityColumns Id T Embedding)) : List (Embedding × ℤ) :=
  members.filterMap fun m => m.2.embedding.map fun v => (v, m.2.mentionCount)

/-- The cosines reach the floor. -/
def oneConcept (members : List (Id × EntityColumns Id T Embedding)) : Bool :=
  cfg.minIntraClusterCosine ≤ minPairwiseCosine kernels ((sourcesOf members).map Prod.fst)

/-- The names are variants of one form. -/
def closeNames (members : List (Id × EntityColumns Id T Embedding)) : Bool :=
  (maxPairwiseLevDistance kernels (members.map fun m => m.2.name) : ℤ) ≤ cfg.levThreshold

variable [DecidableEq Id]

/-- `_load_members` on a listing of the namespace. -/
def loadMembers (listing : List (Id × EntityColumns Id T Embedding)) (clusterIds : List Id) :
    List (Id × EntityColumns Id T Embedding) :=
  listing.filter fun e => e.1 ∈ clusterIds

/-- `_plan_cluster`, or nothing if it raises. -/
def planCluster (listing : List (Id × EntityColumns Id T Embedding)) (clusterIds : List Id) :
    Option (CentroidOp Id) :=
  let members := loadMembers listing clusterIds
  if members.length < 2 then some ⟨clusterIds.length, clusterIds, .skipSingleton⟩
  else (members.argmax fun m => m.2.mentionCount).bind fun canonical =>
    let decision :=
      if !oneConcept cfg kernels members then some (.skipMultimodal canonical.1)
      else if closeNames cfg kernels members then
        (weightedCentroid kernels.normalize (sourcesOf members)).map fun vector =>
          .centroid canonical.1 vector (sourcesOf members).length
      else some (.reEmbed canonical.1 canonical.2.name members.length)
    decision.map fun decision => ⟨members.length, members.map Prod.fst, decision⟩

/-- `plan_vectorcypher_centroid_recompute`; each cluster lists the namespace again. -/
def planCentroidRecompute (listing : List Id → List (Id × EntityColumns Id T Embedding)) :
    List (List Id) → Option (List (CentroidOp Id))
  | [] => some []
  | cluster :: clusters => (planCluster cfg kernels (listing cluster) cluster).bind fun op =>
      (planCentroidRecompute listing clusters).map fun ops => op :: ops

/-- The cluster of a dedupe op. -/
def mergeCluster (op : PlannedDedupe Id) : Option (List Id) :=
  if op.decision = .planned then
    let memberIds := (op.op.merges.flatMap fun m => [m.canonicalId, m.absorbedId]).eraseDups
    if 2 ≤ memberIds.length then some memberIds else none
  else none

/-- `_merge_clusters_from_dedupe` -/
def mergeClustersFromDedupe (dedupeOps : List (PlannedDedupe Id)) : List (List Id) :=
  dedupeOps.filterMap mergeCluster

end Plan

/-- The ops before the recomputes. -/
def graphOps [DecidableEq Id] (cfg : DreamPlanConfig) (dedupeOps : List (PlannedDedupe Id))
    (s : VectorCypherStore Id T Embedding) : List (VectorCypherOp Id) :=
  (if cfg.wanted .vectorcypherPruneEdges then s.planPruneEdges cfg else []) ++
    dedupeOps.map (fun op => .dedupeEntities op.op) ++
    (if cfg.wanted .vectorcypherSourceChunkIdsGc then s.planSourceChunkIdsGc cfg else [])

/-- `_VectorCypherPlugin.plan_dream` with dedupe and recompute enabled. -/
def planDream [LinearOrder Id] [LinearOrder T] (cfg : DreamPlanConfig) (centroidCfg : CentroidConfig)
    (kernels : CentroidKernels) (newId : Id → Id)
    (blockAndScorePairs : List Embedding → List String → ℚ → List (ℕ × ℕ × ℚ))
    (entities : List (Id × EntityColumns Id T Embedding)) (listing : List Id → List (Id × EntityColumns Id T Embedding))
    (s : VectorCypherStore Id T Embedding) : Option (List (VectorCypherOp Id) × List (CentroidOp Id)) :=
  let dedupeOps := planVectorcypherDedupeEntities cfg newId blockAndScorePairs entities
  (planCentroidRecompute centroidCfg kernels listing (mergeClustersFromDedupe dedupeOps)).map fun centroidOps =>
    (graphOps cfg dedupeOps s, centroidOps)

/-! ## Apply -/

section Apply

variable [DecidableEq Id]

/-- `_read_current_embedding` -/
def readCurrentEmbedding (s : VectorCypherStore Id T Embedding) (entity : Id) : Option Embedding :=
  if entity ∈ s.tables.entities.rows.map Entity.id then (s.entities entity).embedding else none

/-- `UPDATE entities SET embedding = :embedding WHERE id = :eid` -/
def writeEmbedding (entity : Id) (vector : Embedding) (s : VectorCypherStore Id T Embedding) :
    VectorCypherStore Id T Embedding :=
  if entity ∈ s.tables.entities.rows.map Entity.id then
    { s with entities := fun i =>
        if i = entity then { s.entities i with embedding := some vector } else s.entities i }
  else s

/-- `before["clusters"]` of an undo record. -/
structure CentroidUndo (Id : Type) where
  entityId : Id
  previousEmbedding : Option Embedding

/-- `apply_vectorcypher_centroid_recompute` on Postgres, as the orchestrator calls it: without an embedder `re_embed`
raises. -/
def applyCentroid (op : CentroidOp Id) (s : VectorCypherStore Id T Embedding) :
    Option (VectorCypherStore Id T Embedding × Option (CentroidUndo Id)) :=
  match op.decision with
  | .skipSingleton => some (s, none)
  | .skipMultimodal _ => some (s, none)
  | .centroid canonical vector _ =>
      let previous := readCurrentEmbedding s canonical
      if previous = some vector then some (s, none)
      else some (writeEmbedding canonical vector s, some ⟨canonical, previous⟩)
  | .reEmbed _ _ _ => none

/-- The recomputes in order, with the undo records of those that wrote; an op that raises ends the run. -/
def applyCentroids : List (CentroidOp Id) → VectorCypherStore Id T Embedding →
    VectorCypherStore Id T Embedding × List (CentroidOp Id × CentroidUndo Id)
  | [], s => (s, [])
  | op :: ops, s =>
      match applyCentroid op s with
      | none => (s, [])
      | some (s', undo) =>
          let rest := applyCentroids ops s'
          (rest.1, (undo.map fun undo => (op, undo)).toList ++ rest.2)

/-- The plan, applied in order. -/
def applyDream (band : VerifierBand) (judge : MergeEntry Id → VerifierDecision) (now : T) [LinearOrder T]
    (plan : List (VectorCypherOp Id) × List (CentroidOp Id)) (s : VectorCypherStore Id T Embedding) :
    VectorCypherStore Id T Embedding × List (CentroidOp Id × CentroidUndo Id) :=
  applyCentroids plan.2 (plan.1.foldl (fun s op => s.handle band judge now op) s)

end Apply

/-! ## What is planned for a cluster -/

section Cluster

variable [DecidableEq Id] {cfg : CentroidConfig} {kernels : CentroidKernels}

/-- The canonical id before each absorbed one, each id once. -/
theorem eraseDups_pairs {k : Id} {as : List Id} (hk : k ∉ as) (hnodup : as.Nodup) (hne : as ≠ []) :
    (as.flatMap fun a => [k, a]).eraseDups = k :: as := by
  have hfilter : ∀ as : List Id, k ∉ as → (as.flatMap fun a => [k, a]).filter (fun b => !b == k) = as := by
    intro as
    induction as with
    | nil => exact fun _ => rfl
    | cons a as ih =>
        intro hk
        rw [List.mem_cons, not_or] at hk
        have ha : (a == k) = false := beq_eq_false_iff_ne.mpr (Ne.symm hk.1)
        simp [ha, ih hk.2]
  have hself : ∀ as : List Id, as.Nodup → as.eraseDups = as := by
    intro as
    induction as with
    | nil => exact fun _ => rfl
    | cons a as ih =>
        intro hnodup
        rw [List.nodup_cons] at hnodup
        rw [List.eraseDups_cons, List.filter_eq_self.mpr, ih hnodup.2]
        intro b hb
        simpa using fun heq : b = a => hnodup.1 (heq ▸ hb)
  obtain ⟨a, rest, rfl⟩ := List.exists_cons_of_ne_nil hne
  have hall := hfilter (a :: rest) hk
  rw [List.flatMap_cons, List.cons_append, List.filter_cons_of_neg (by simp)] at hall
  rw [List.flatMap_cons, List.cons_append, List.eraseDups_cons, hall, hself _ hnodup]

/-- **The cluster of a planned op** is its canonical entity and those it absorbs. -/
theorem mergeCluster_planned {op : PlannedDedupe Id} (hplanned : op.decision = .planned)
    (hcanonical : ∀ m ∈ op.op.merges, m.canonicalId = op.keepId)
    (habsorbed : op.op.merges.map MergeEntry.absorbedId = op.dropIds) (hnodup : op.allIds.Nodup)
    (hne : op.dropIds ≠ []) : mergeCluster op = some op.allIds := by
  have hpairs : (op.op.merges.flatMap fun m => [m.canonicalId, m.absorbedId]) =
      op.dropIds.flatMap fun a => [op.keepId, a] := by
    rw [← habsorbed, List.flatMap_map]
    apply List.flatMap_congr
    intro m hm
    rw [hcanonical m hm]
  rw [PlannedDedupe.allIds, List.nodup_cons] at hnodup
  obtain ⟨a, rest, hdrop⟩ := List.exists_cons_of_ne_nil hne
  rw [mergeCluster, if_pos hplanned]
  simp only
  rw [hpairs, eraseDups_pairs hnodup.1 hnodup.2 hne, PlannedDedupe.allIds, hdrop]
  rfl

theorem planCentroidRecompute_eq_some {listing : List Id → List (Id × EntityColumns Id T Embedding)}
    {clusters : List (List Id)} {ops : List (CentroidOp Id)} :
    planCentroidRecompute cfg kernels listing clusters = some ops ↔
      List.Forall₂ (fun cluster op => planCluster cfg kernels (listing cluster) cluster = some op) clusters ops := by
  induction clusters generalizing ops with
  | nil =>
      rw [planCentroidRecompute, Option.some.injEq, List.forall₂_nil_left_iff]
      exact eq_comm
  | cons cluster clusters ih =>
      rw [planCentroidRecompute, List.forall₂_cons_left_iff, Option.bind_eq_some_iff]
      constructor
      · rintro ⟨op, hop, hrest⟩
        obtain ⟨rest, hplanned, rfl⟩ := Option.map_eq_some_iff.mp hrest
        exact ⟨op, rest, hop, ih.mp hplanned, rfl⟩
      · rintro ⟨op, rest, hop, hrest, rfl⟩
        exact ⟨op, hop, Option.map_eq_some_iff.mpr ⟨rest, ih.mpr hrest, rfl⟩⟩

/-- What the op of a cluster of two or more says. -/
theorem planCluster_spec {listing : List (Id × EntityColumns Id T Embedding)} {clusterIds : List Id}
    {op : CentroidOp Id} (hlen : 2 ≤ (loadMembers listing clusterIds).length)
    (h : planCluster cfg kernels listing clusterIds = some op) :
    let members := loadMembers listing clusterIds
    op.memberIds = members.map Prod.fst ∧ ∃ canonical, members.argmax (fun m => m.2.mentionCount) = some canonical ∧
      (oneConcept cfg kernels members = false ∧ op.decision = .skipMultimodal canonical.1 ∨
        oneConcept cfg kernels members = true ∧ closeNames cfg kernels members = true ∧
          (∃ vector, weightedCentroid kernels.normalize (sourcesOf members) = some vector ∧
            op.decision = .centroid canonical.1 vector (sourcesOf members).length) ∨
        oneConcept cfg kernels members = true ∧ closeNames cfg kernels members = false ∧
          op.decision = .reEmbed canonical.1 canonical.2.name members.length) := by
  unfold planCluster at h
  simp only at h
  rw [if_neg (not_lt.mpr hlen)] at h
  obtain ⟨canonical, hcanonical, h⟩ := Option.bind_eq_some_iff.mp h
  obtain ⟨decision, hdecision, rfl⟩ := Option.map_eq_some_iff.mp h
  refine ⟨rfl, canonical, hcanonical, ?_⟩
  cases hone : oneConcept cfg kernels (loadMembers listing clusterIds) with
  | false =>
      rw [hone] at hdecision
      exact Or.inl ⟨rfl, (Option.some.inj hdecision).symm⟩
  | true =>
      cases hclose : closeNames cfg kernels (loadMembers listing clusterIds) with
      | true =>
          rw [hone, hclose] at hdecision
          obtain ⟨vector, hvector, rfl⟩ := Option.map_eq_some_iff.mp hdecision
          exact Or.inr (Or.inl ⟨rfl, rfl, vector, hvector, rfl⟩)
      | false =>
          rw [hone, hclose] at hdecision
          exact Or.inr (Or.inr ⟨rfl, rfl, (Option.some.inj hdecision).symm⟩)

end Cluster

/-! ## What is rewritten -/

section Rewrites

variable [DecidableEq Id]

/-- The entity of a centroid op. -/
def CentroidOp.target (op : CentroidOp Id) : Option Id :=
  match op.decision with
  | .centroid canonical _ _ => some canonical
  | _ => none

/-- The handler raises. -/
def CentroidOp.raises (op : CentroidOp Id) : Bool :=
  match op.decision with
  | .reEmbed _ _ _ => true
  | _ => false

/-- The undo record of an op that writes. -/
def rewriteOf (s : VectorCypherStore Id T Embedding) (op : CentroidOp Id) : Option (CentroidUndo Id) :=
  match op.decision with
  | .centroid canonical vector _ =>
      let previous := readCurrentEmbedding s canonical
      if previous = some vector then none else some ⟨canonical, previous⟩
  | _ => none

@[simp] theorem tables_writeEmbedding (entity : Id) (vector : Embedding) (s : VectorCypherStore Id T Embedding) :
    (writeEmbedding entity vector s).tables = s.tables := by
  unfold writeEmbedding
  split <;> rfl

theorem entities_writeEmbedding {entity i : Id} (hne : i ≠ entity) (vector : Embedding)
    (s : VectorCypherStore Id T Embedding) : (writeEmbedding entity vector s).entities i = s.entities i := by
  unfold writeEmbedding
  split
  · exact if_neg hne
  · rfl

theorem readCurrentEmbedding_write {entity i : Id} (hne : i ≠ entity) (vector : Embedding)
    (s : VectorCypherStore Id T Embedding) :
    readCurrentEmbedding (writeEmbedding entity vector s) i = readCurrentEmbedding s i := by
  unfold readCurrentEmbedding
  rw [tables_writeEmbedding, entities_writeEmbedding hne]

/-- One op that does not raise: its record, and the other entities keep their embeddings. -/
theorem applyCentroid_spec (op : CentroidOp Id) (s : VectorCypherStore Id T Embedding) (h : op.raises = false) :
    ∃ s', applyCentroid op s = some (s', rewriteOf s op) ∧ s'.tables = s.tables ∧
      ∀ i, op.target ≠ some i → readCurrentEmbedding s' i = readCurrentEmbedding s i := by
  unfold applyCentroid rewriteOf CentroidOp.target
  unfold CentroidOp.raises at h
  cases hdecision : op.decision with
  | skipSingleton => exact ⟨s, rfl, rfl, fun _ _ => rfl⟩
  | skipMultimodal canonical => exact ⟨s, rfl, rfl, fun _ _ => rfl⟩
  | reEmbed canonical text count => simp [hdecision] at h
  | centroid canonical vector count =>
      simp only
      by_cases hsame : readCurrentEmbedding s canonical = some vector
      · rw [if_pos hsame, if_pos hsame]
        exact ⟨s, rfl, rfl, fun _ _ => rfl⟩
      · rw [if_neg hsame, if_neg hsame]
        refine ⟨_, rfl, tables_writeEmbedding _ _ _, ?_⟩
        intro i hi
        exact readCurrentEmbedding_write (fun heq => hi (congrArg some heq.symm)) vector s

theorem tables_applyCentroids (ops : List (CentroidOp Id)) : ∀ s : VectorCypherStore Id T Embedding,
    (applyCentroids ops s).1.tables = s.tables := by
  induction ops with
  | nil => exact fun s => rfl
  | cons op ops ih =>
      intro s
      rw [applyCentroids]
      cases hraises : op.raises with
      | true =>
          have hnone : applyCentroid op s = none := by
            unfold CentroidOp.raises at hraises
            unfold applyCentroid
            cases hdecision : op.decision <;> simp [hdecision] at hraises ⊢
          rw [hnone]
      | false =>
          obtain ⟨s', happly, htables, -⟩ := applyCentroid_spec op s hraises
          rw [happly]
          exact (ih s').trans htables

/-- The record of an op reads only its own entity. -/
theorem rewriteOf_congr {op : CentroidOp Id} {s s' : VectorCypherStore Id T Embedding}
    (h : ∀ i, op.target = some i → readCurrentEmbedding s' i = readCurrentEmbedding s i) :
    rewriteOf s' op = rewriteOf s op := by
  unfold rewriteOf
  unfold CentroidOp.target at h
  cases hdecision : op.decision with
  | centroid canonical vector count =>
      rw [hdecision] at h
      simp only [h canonical rfl]
  | skipSingleton => rfl
  | skipMultimodal canonical => rfl
  | reEmbed canonical text count => rfl

/-- **The ops that rewrite**: those before the first that raises, whose vector is not there already. -/
theorem mem_applyCentroids {D : Type} {plansTo : D → CentroidOp Id → Prop} {ids : D → List Id}
    (hfun : ∀ d op op', plansTo d op → plansTo d op' → op = op')
    (htarget : ∀ d op, plansTo d op → ∀ i, op.target = some i → i ∈ ids d) {ds : List D}
    {ops : List (CentroidOp Id)} (hops : List.Forall₂ plansTo ds ops)
    (hdisjoint : ds.Pairwise fun d d' => List.Disjoint (ids d) (ids d')) {r : CentroidOp Id × CentroidUndo Id} :
    ∀ s : VectorCypherStore Id T Embedding, r ∈ (applyCentroids ops s).2 ↔
      ∃ before d after, ds = before ++ d :: after ∧ plansTo d r.1 ∧
        (∀ d' ∈ before, ∀ op, plansTo d' op → op.raises = false) ∧ rewriteOf s r.1 = some r.2 := by
  induction hops with
  | nil =>
      intro s
      simp [applyCentroids]
  | @cons d op ds ops hop hops ih =>
      intro s
      rw [List.pairwise_cons] at hdisjoint
      rw [applyCentroids]
      cases hraises : op.raises with
      | true =>
          have hnone : applyCentroid op s = none ∧ rewriteOf s op = none := by
            unfold CentroidOp.raises at hraises
            unfold applyCentroid rewriteOf
            cases hdecision : op.decision <;> simp [hdecision] at hraises ⊢
          rw [hnone.1]
          refine iff_of_false List.not_mem_nil ?_
          rintro ⟨before, d', after, heq, hplan, hbefore, hrewrite⟩
          cases before with
          | nil =>
              obtain ⟨rfl, -⟩ := List.cons.inj heq
              rw [hfun _ _ _ hplan hop, hnone.2] at hrewrite
              cases hrewrite
          | cons b before =>
              obtain ⟨rfl, -⟩ := List.cons.inj heq
              rw [hbefore _ List.mem_cons_self op hop] at hraises
              cases hraises
      | false =>
          obtain ⟨s', happly, -, hread⟩ := applyCentroid_spec op s hraises
          rw [happly]
          simp only
          rw [List.mem_append, ih hdisjoint.2 s']
          -- the ops after this one write other entities
          have hrest : ∀ d' ∈ ds, ∀ op', plansTo d' op' → rewriteOf s' op' = rewriteOf s op' := by
            intro d' hd' op' hplan
            apply rewriteOf_congr
            intro i hi
            apply hread
            intro heq
            exact hdisjoint.1 d' hd' (htarget d op hop i heq) (htarget d' op' hplan i hi)
          constructor
          · rintro (hhere | ⟨before, d', after, rfl, hplan, hbefore, hrewrite⟩)
            · obtain ⟨undo, hundo, rfl⟩ := Option.map_eq_some_iff.mp (Option.mem_toList.mp hhere)
              exact ⟨[], d, ds, rfl, hop, by simp, hundo⟩
            · refine ⟨d :: before, d', after, rfl, hplan, ?_, ?_⟩
              · intro b hb op' hop'
                rcases List.mem_cons.mp hb with rfl | hb
                · rw [hfun _ _ _ hop' hop]
                  exact hraises
                · exact hbefore b hb op' hop'
              · rw [← hrest d' (by simp) r.1 hplan]
                exact hrewrite
          · rintro ⟨before, d', after, heq, hplan, hbefore, hrewrite⟩
            cases before with
            | nil =>
                obtain ⟨rfl, rfl⟩ := List.cons.inj heq
                left
                obtain rfl := hfun _ _ _ hplan hop
                rw [Option.mem_toList]
                exact Option.map_eq_some_iff.mpr ⟨r.2, hrewrite, rfl⟩
            | cons b before =>
                obtain ⟨rfl, rfl⟩ := List.cons.inj heq
                right
                refine ⟨before, d', after, rfl, hplan, ?_, ?_⟩
                · exact fun b' hb' => hbefore b' (List.mem_cons_of_mem _ hb')
                · rw [hrest d' (by simp) r.1 hplan]
                  exact hrewrite

end Rewrites

/-! ## What the other ops leave alone -/

section Phase

variable [DecidableEq Id] (band : VerifierBand) (judge : MergeEntry Id → VerifierDecision) (now : T)

/-- The entities that an op retires. -/
def retires : VectorCypherOp Id → List Id
  | .dedupeEntities op => absorbedIds band judge op.merges
  | .pruneEdge _ => []
  | .sourceChunkIdsGc _ _ => []

/-- The merges of an op have one canonical entity. -/
def OneCanonical : VectorCypherOp Id → Prop
  | .dedupeEntities op => ∃ c, ∀ m ∈ op.merges, m.canonicalId = c
  | .pruneEdge _ => True
  | .sourceChunkIdsGc _ _ => True

/-- Same entities with the same embeddings, and those outside a list have their rows. -/
structure KeepsEntities (gone : List Id) (s s' : VectorCypherStore Id T Embedding) : Prop where
  ids : s'.tables.entities.rows.map Entity.id = s.tables.entities.rows.map Entity.id
  embedding : ∀ i, (s'.entities i).embedding = (s.entities i).embedding
  rows : ∀ e ∈ s.tables.entities.rows, e.id ∉ gone → e ∈ s'.tables.entities.rows

theorem keepsEntities_handle {op : VectorCypherOp Id} (hop : OneCanonical op)
    (s : VectorCypherStore Id T Embedding) :
    KeepsEntities (retires band judge op) s (s.handle band judge now op) := by
  cases op with
  | pruneEdge relationship =>
      show KeepsEntities [] s (s.applyPruneEdge now relationship)
      unfold applyPruneEdge
      split
      · exact ⟨rfl, fun _ => rfl, fun e he _ => he⟩
      · exact ⟨rfl, fun _ => rfl, fun e he _ => he⟩
  | sourceChunkIdsGc entity after =>
      show KeepsEntities [] s (s.applySourceChunkIdsGc entity after)
      unfold applySourceChunkIdsGc
      split
      · refine ⟨rfl, fun i => ?_, fun e he _ => he⟩
        by_cases hi : i = entity
        · simp [hi]
        · simp [hi]
      · exact ⟨rfl, fun _ => rfl, fun e he _ => he⟩
  | dedupeEntities op =>
      obtain ⟨c, hc⟩ := hop
      have hrows := (@rows_applyMerges _ _ _ op.opId now c band judge op.merges s.tables hc).2
      refine ⟨?_, fun _ => rfl, ?_⟩
      · show ((applyMerges band judge op.opId now op.merges s.tables).1.entities.rows).map Entity.id = _
        rw [hrows, List.map_map]
        apply List.map_congr_left
        intro e _
        show ((absorbedIds band judge op.merges).foldl (retire now) e).id = e.id
        rw [foldl_retire]
        split <;> rfl
      · intro e he hgone
        show e ∈ (applyMerges band judge op.opId now op.merges s.tables).1.entities.rows
        rw [hrows]
        refine List.mem_map.mpr ⟨e, he, ?_⟩
        rw [foldl_retire]
        exact if_neg fun h => hgone h.1

theorem keepsEntities_phase {ops : List (VectorCypherOp Id)} (hops : ∀ op ∈ ops, OneCanonical op) :
    ∀ s : VectorCypherStore Id T Embedding, KeepsEntities (ops.flatMap (retires band judge)) s
      (ops.foldl (fun s op => s.handle band judge now op) s) := by
  induction ops with
  | nil => exact fun s => ⟨rfl, fun _ => rfl, fun e he _ => he⟩
  | cons op ops ih =>
      intro s
      have hhead := keepsEntities_handle band judge now (hops op List.mem_cons_self) s
      have htail := ih (fun op' h => hops op' (List.mem_cons_of_mem _ h)) (s.handle band judge now op)
      refine ⟨htail.ids.trans hhead.ids, fun i => (htail.embedding i).trans (hhead.embedding i), ?_⟩
      intro e he hgone
      rw [List.flatMap_cons, List.mem_append, not_or] at hgone
      exact htail.rows e (hhead.rows e he hgone.1) hgone.2

variable {band judge now}

theorem KeepsEntities.readCurrentEmbedding {gone : List Id} {s s' : VectorCypherStore Id T Embedding}
    (h : KeepsEntities gone s s') (i : Id) :
    CentroidRecompute.readCurrentEmbedding s' i = CentroidRecompute.readCurrentEmbedding s i := by
  unfold CentroidRecompute.readCurrentEmbedding
  rw [h.ids, h.embedding]

end Phase

/-! ## When the recompute follows the dedupe -/

section Exact

variable [LinearOrder Id] [LinearOrder T]

/-- The entity has a live row. -/
def Live (now : T) (s : VectorCypherStore Id T Embedding) (entity : Id) : Prop :=
  ∃ e ∈ s.tables.entities.rows, e.id = entity ∧ ∀ u, e.validUntil = some u → now < u

/-- The entities as `list_entities` returns them again: where there is a graph they come from it, without
embeddings. -/
def listAgain (graph : Bool) (entities : List (Id × EntityColumns Id T Embedding)) :
    List (Id × EntityColumns Id T Embedding) :=
  if graph then entities.map fun e => (e.1, { e.2 with embedding := none }) else entities

/-- The listings of a run: the live rows, in any order. -/
structure Lists (graph : Bool) (now : T) (s : VectorCypherStore Id T Embedding)
    (entities : List (Id × EntityColumns Id T Embedding))
    (listing : List Id → List (Id × EntityColumns Id T Embedding)) : Prop where
  distinct : (entities.map Prod.fst).Nodup
  rows : ∀ e ∈ entities, e.2 = s.entities e.1 ∧ Live now s e.1
  again : ∀ cluster, (listing cluster).Perm (listAgain graph entities)

/-- The rewrite follows its dedupe op: the entity is live and the canonical one, and the vector is the centroid of it
and of those that it absorbed. -/
def Follows (normalize : Embedding → Embedding) (band : VerifierBand) (judge : MergeEntry Id → VerifierDecision)
    (now : T) (dedupeOps : List (PlannedDedupe Id)) (s final : VectorCypherStore Id T Embedding)
    (r : CentroidOp Id × CentroidUndo Id) : Prop :=
  Live now final r.2.entityId ∧
    (∃ vector, r.1.decision = .centroid r.2.entityId vector r.1.memberIds.length ∧
      weightedCentroid normalize (sourcesOf (r.1.memberIds.map fun i => (i, s.entities i))) = some vector) ∧
    ∃ d ∈ dedupeOps, r.1.memberIds.Perm d.allIds ∧ r.2.entityId = d.keepId ∧
      ∀ x, x ∈ r.1.memberIds ↔ x = d.keepId ∨ x ∈ absorbedIds band judge d.op.merges

section Condition

variable (cfg : CentroidConfig) (kernels : CentroidKernels)
  (listing : List Id → List (Id × EntityColumns Id T Embedding))

/-- The members of the component of an op, as they are listed for it. -/
def membersListed (d : PlannedDedupe Id) : List (Id × EntityColumns Id T Embedding) :=
  loadMembers (listing d.allIds) d.allIds

/-- One concept under names that are far apart: to be embedded again. -/
def Distant (d : PlannedDedupe Id) : Prop :=
  oneConcept cfg kernels (membersListed listing d) = true ∧ closeNames cfg kernels (membersListed listing d) = false

/-- One concept under close names, and the centroid is not what the most mentioned member has. -/
def Due (d : PlannedDedupe Id) : Prop :=
  oneConcept cfg kernels (membersListed listing d) = true ∧ closeNames cfg kernels (membersListed listing d) = true ∧
    ∀ m ∈ (membersListed listing d).argmax fun m => m.2.mentionCount,
      weightedCentroid kernels.normalize (sourcesOf (membersListed listing d)) ≠ m.2.embedding

/-- No member with as many mentions is listed before the canonical one. -/
def ListedFirst (d : PlannedDedupe Id) : Prop :=
  ∃ before c after, membersListed listing d = before ++ c :: after ∧ c.1 = d.keepId ∧
    ∀ m ∈ before, m.2.mentionCount < c.2.mentionCount

/-- The verifier lets every merge of the component pass. -/
def Approved (band : VerifierBand) (judge : MergeEntry Id → VerifierDecision) (d : PlannedDedupe Id) : Prop :=
  ∀ m ∈ d.op.merges, authorized band judge m = true

/-- The planned ops, in order. -/
def plannedOps (dedupeOps : List (PlannedDedupe Id)) : List (PlannedDedupe Id) :=
  dedupeOps.filter fun d => d.decision = .planned

end Condition

section Members

variable {planCfg : DreamPlanConfig} {cfg : CentroidConfig} {kernels : CentroidKernels} {newId : Id → Id}
  {blockAndScorePairs : List Embedding → List String → ℚ → List (ℕ × ℕ × ℚ)}
  {entities : List (Id × EntityColumns Id T Embedding)} {s : VectorCypherStore Id T Embedding}
  {listing : List Id → List (Id × EntityColumns Id T Embedding)} {graph : Bool} {now : T}

omit [LinearOrder Id] in
/-- The graph changes the embeddings only. -/
theorem mem_listing (hlists : Lists graph now s entities listing) {cluster : List Id}
    {m : Id × EntityColumns Id T Embedding} (hm : m ∈ listing cluster) :
    ∃ e ∈ entities, e.1 = m.1 ∧ e.2.mentionCount = m.2.mentionCount ∧ (m.2.embedding ≠ none → m = e) := by
  have hagain := (hlists.again cluster).mem_iff.mp hm
  unfold listAgain at hagain
  split at hagain
  · obtain ⟨e, he, rfl⟩ := List.mem_map.mp hagain
    exact ⟨e, he, rfl, rfl, fun h => absurd rfl h⟩
  · exact ⟨m, hagain, rfl, rfl, fun _ => rfl⟩

omit [LinearOrder Id] in
theorem ids_listing (hlists : Lists graph now s entities listing) (cluster : List Id) :
    ((listing cluster).map Prod.fst).Perm (entities.map Prod.fst) := by
  refine ((hlists.again cluster).map Prod.fst).trans ?_
  unfold listAgain
  split
  · rw [List.map_map]
    exact List.Perm.refl _
  · exact List.Perm.refl _

/-- What the plan says of one of its ops. -/
structure OfPlan (entities : List (Id × EntityColumns Id T Embedding)) (d : PlannedDedupe Id) : Prop where
  nodup : d.allIds.Nodup
  mostMentioned : ∃ c ∈ entities, c.1 = d.keepId ∧
    ∀ e ∈ entities, e.1 ∈ d.allIds → e.2.mentionCount ≤ c.2.mentionCount
  embedded : ∀ x ∈ d.allIds, ∃ e ∈ entities, e.1 = x ∧ e.2.embedding.isSome = true
  absorbs : d.dropIds ≠ []

/-- The members of a component are listed. -/
theorem ids_membersListed (hlists : Lists graph now s entities listing) {d : PlannedDedupe Id}
    (hd : OfPlan entities d) : ((membersListed listing d).map Prod.fst).Perm d.allIds := by
  have hids := ids_listing hlists d.allIds
  have hnodup : ((listing d.allIds).map Prod.fst).Nodup := hids.nodup_iff.mpr hlists.distinct
  apply (List.perm_ext_iff_of_nodup (hnodup.sublist (List.filter_sublist.map _)) hd.nodup).mpr
  intro x
  constructor
  · intro hx
    obtain ⟨m, hm, rfl⟩ := List.mem_map.mp hx
    exact of_decide_eq_true (List.mem_filter.mp hm).2
  · intro hx
    obtain ⟨e, he, rfl, -⟩ := hd.embedded x hx
    obtain ⟨m, hm, hid⟩ := List.mem_map.mp (hids.mem_iff.mpr (List.mem_map_of_mem he))
    exact List.mem_map.mpr ⟨m, List.mem_filter.mpr ⟨hm, decide_eq_true (hid ▸ hx)⟩, hid⟩

theorem two_le_membersListed (hlists : Lists graph now s entities listing) {d : PlannedDedupe Id}
    (hd : OfPlan entities d) : 2 ≤ (membersListed listing d).length := by
  have hlen := (ids_membersListed hlists hd).length_eq
  obtain ⟨a, rest, hdrop⟩ := List.exists_cons_of_ne_nil hd.absorbs
  rw [List.length_map, PlannedDedupe.allIds, hdrop, List.length_cons, List.length_cons] at hlen
  omega

/-- **The most mentioned member is the canonical one exactly if that is listed first.** -/
theorem argmax_eq_keepId_iff (hlists : Lists graph now s entities listing) {d : PlannedDedupe Id}
    (hd : OfPlan entities d) {m : Id × EntityColumns Id T Embedding}
    (hm : (membersListed listing d).argmax (fun m => m.2.mentionCount) = some m) :
    m.1 = d.keepId ↔ ListedFirst listing d := by
  constructor
  · intro hkeep
    obtain ⟨before, after, hsplit, hbefore, -⟩ := TopK.argmax_eq_some_iff_split.mp hm
    exact ⟨before, m, after, hsplit, hkeep, hbefore⟩
  · rintro ⟨before, c, after, hsplit, hkeep, hbefore⟩
    -- the canonical member has the most mentions
    have hmost : ∀ e ∈ membersListed listing d, e.2.mentionCount ≤ c.2.mentionCount := by
      intro e he
      obtain ⟨k, hk, hkid, hkmost⟩ := hd.mostMentioned
      have hc : c ∈ membersListed listing d := by simp [hsplit]
      obtain ⟨c', hc', hcid, hcount, -⟩ := mem_listing hlists (List.mem_filter.mp hc).1
      obtain ⟨e', he', heid, hecount, -⟩ := mem_listing hlists (List.mem_filter.mp he).1
      obtain rfl : c' = k := List.inj_on_of_nodup_map hlists.distinct hc' hk (by rw [hcid, hkid, hkeep])
      rw [← hecount, ← hcount]
      exact hkmost e' he' (by rw [heid]; exact of_decide_eq_true (List.mem_filter.mp he).2)
    have hargmax : (membersListed listing d).argmax (fun m => m.2.mentionCount) = some c :=
      TopK.argmax_eq_some_iff_split.mpr ⟨before, after, hsplit, hbefore, fun e he => hmost e (by simp [hsplit, he])⟩
    rw [hm] at hargmax
    rw [Option.some.inj hargmax]
    exact hkeep

/-- **A centroid is of the stored rows of all members.**  From the graph there is none. -/
theorem sources_of_centroid (hlists : Lists graph now s entities listing) {d : PlannedDedupe Id}
    (hd : OfPlan entities d) {vector : Embedding}
    (hvector : weightedCentroid kernels.normalize (sourcesOf (membersListed listing d)) = some vector) :
    (∀ m ∈ membersListed listing d, m ∈ entities) ∧
      (membersListed listing d).map (fun m => (m.1, s.entities m.1)) = membersListed listing d ∧
      (sourcesOf (membersListed listing d)).length = (membersListed listing d).length := by
  have hstored : ∀ m ∈ membersListed listing d, m ∈ entities := by
    cases graph with
    | false =>
        intro m hm
        exact (hlists.again d.allIds).mem_iff.mp (List.mem_filter.mp hm).1
    | true =>
        -- without embeddings there is no first one
        exfalso
        have hnone : sourcesOf (membersListed listing d) = [] := by
          rw [sourcesOf, List.filterMap_eq_nil_iff]
          intro m hm
          obtain ⟨e, -, rfl⟩ := List.mem_map.mp ((hlists.again d.allIds).mem_iff.mp (List.mem_filter.mp hm).1)
          rfl
        rw [hnone] at hvector
        cases hvector
  have hsome : ∀ m ∈ membersListed listing d, m.2.embedding.isSome = true := by
    intro m hm
    obtain ⟨e, he, hid, hembedded⟩ := hd.embedded m.1 (of_decide_eq_true (List.mem_filter.mp hm).2)
    obtain rfl : e = m := List.inj_on_of_nodup_map hlists.distinct he (hstored m hm) hid
    exact hembedded
  refine ⟨hstored, ?_, ?_⟩
  · conv_rhs => rw [← List.map_id (membersListed listing d)]
    apply List.map_congr_left
    intro m hm
    rw [← (hlists.rows m (hstored m hm)).1]
    rfl
  · rw [sourcesOf, List.length_filterMap_eq_countP, List.countP_eq_length]
    intro m hm
    rw [Option.isSome_map]
    exact hsome m hm

end Members

section Run

variable {cfg : CentroidConfig} {kernels : CentroidKernels} {entities : List (Id × EntityColumns Id T Embedding)}
  {s s' : VectorCypherStore Id T Embedding} {listing : List Id → List (Id × EntityColumns Id T Embedding)}
  {graph : Bool} {now : T} {band : VerifierBand} {judge : MergeEntry Id → VerifierDecision}
  {dedupeOps : List (PlannedDedupe Id)} {centroidOps : List (CentroidOp Id)} {gone : List Id}

/-- Up to the first component that is to be embedded again: if the recompute of a component is due, its canonical
member is listed first and the verifier lets its merges pass. -/
def InStep (cfg : CentroidConfig) (kernels : CentroidKernels)
    (listing : List Id → List (Id × EntityColumns Id T Embedding)) (band : VerifierBand)
    (judge : MergeEntry Id → VerifierDecision) (dedupeOps : List (PlannedDedupe Id)) : Prop :=
  ∀ before d after, plannedOps dedupeOps = before ++ d :: after →
    (∀ d' ∈ before, ¬Distant cfg kernels listing d') → Due cfg kernels listing d →
      ListedFirst listing d ∧ Approved band judge d

/-- What the ops of a dedupe plan have in common. -/
structure CoherentOps (entities : List (Id × EntityColumns Id T Embedding)) (dedupeOps : List (PlannedDedupe Id)) :
    Prop where
  each : ∀ d ∈ dedupeOps, OfPlan entities d
  disjoint : dedupeOps.Pairwise fun d d' => List.Disjoint d.allIds d'.allIds
  canonical : ∀ d ∈ dedupeOps, ∀ m ∈ d.op.merges, m.canonicalId = d.keepId
  absorbed : ∀ d ∈ dedupeOps, d.op.merges.map MergeEntry.absorbedId = if d.decision = .planned then d.dropIds else []

omit [LinearOrder Id] [LinearOrder T] in
theorem CoherentOps.eq_of_shared (h : CoherentOps entities dedupeOps) {d d' : PlannedDedupe Id} (hd : d ∈ dedupeOps)
    (hd' : d' ∈ dedupeOps) {x : Id} (hx : x ∈ d.allIds) (hx' : x ∈ d'.allIds) : d = d' := by
  by_contra hne
  have hsymm : Std.Symm fun d d' : PlannedDedupe Id => List.Disjoint d.allIds d'.allIds := ⟨fun _ _ h => h.symm⟩
  exact h.disjoint.forall hd hd' hne hx hx'

omit [LinearOrder T] in
theorem mergeClusters_eq (h : CoherentOps entities dedupeOps) :
    mergeClustersFromDedupe dedupeOps = (plannedOps dedupeOps).map PlannedDedupe.allIds := by
  have heach : ∀ d ∈ dedupeOps, mergeCluster d = if d.decision = .planned then some d.allIds else none := by
    intro d hd
    by_cases hplanned : d.decision = .planned
    · rw [if_pos hplanned]
      apply mergeCluster_planned hplanned (h.canonical d hd) ?_ (h.each d hd).nodup (h.each d hd).absorbs
      rw [h.absorbed d hd, if_pos hplanned]
    · rw [if_neg hplanned, mergeCluster, if_neg hplanned]
  have hlist : ∀ ds : List (PlannedDedupe Id), (∀ d ∈ ds, mergeCluster d =
      if d.decision = .planned then some d.allIds else none) →
      ds.filterMap mergeCluster = (plannedOps ds).map PlannedDedupe.allIds := by
    intro ds
    unfold plannedOps
    induction ds with
    | nil => exact fun _ => rfl
    | cons d ds ih =>
        intro hds
        rw [List.filterMap_cons, hds d List.mem_cons_self, List.filter_cons, ih fun d' h' =>
          hds d' (List.mem_cons_of_mem _ h')]
        by_cases hplanned : d.decision = .planned
        · simp [hplanned]
        · simp [hplanned]
  exact hlist dedupeOps heach

theorem exists_of_forall₂ {A B : Type} {R : A → B → Prop} {as : List A} {bs : List B} (h : List.Forall₂ R as bs)
    {a : A} (ha : a ∈ as) : ∃ b, R a b := by
  induction h with
  | nil => cases ha
  | cons hab _ ih =>
      rcases List.mem_cons.mp ha with rfl | ha
      · exact ⟨_, hab⟩
      · exact ih ha

omit [LinearOrder Id] [LinearOrder T] in
theorem mem_of_mem_planned {d : PlannedDedupe Id} (h : d ∈ plannedOps dedupeOps) :
    d ∈ dedupeOps ∧ d.decision = .planned :=
  ⟨(List.mem_filter.mp h).1, of_decide_eq_true (List.mem_filter.mp h).2⟩

omit [LinearOrder Id] [LinearOrder T] in
/-- The op absorbs all others of its component exactly if the verifier lets its merges pass. -/
theorem approved_iff (h : CoherentOps entities dedupeOps) {d : PlannedDedupe Id} (hd : d ∈ plannedOps dedupeOps) :
    (∀ x, x ∈ d.allIds ↔ x = d.keepId ∨ x ∈ absorbedIds band judge d.op.merges) ↔ Approved band judge d := by
  obtain ⟨hmem, hplanned⟩ := mem_of_mem_planned hd
  have hdrop : d.op.merges.map MergeEntry.absorbedId = d.dropIds := by
    rw [h.absorbed d hmem, if_pos hplanned]
  have hnodup := (h.each d hmem).nodup
  rw [PlannedDedupe.allIds, List.nodup_cons, ← hdrop] at hnodup
  constructor
  · intro hall m hm
    have hin : m.absorbedId ∈ d.op.merges.map MergeEntry.absorbedId := List.mem_map_of_mem hm
    have hx := (hall m.absorbedId).mp (by rw [PlannedDedupe.allIds, ← hdrop]; exact List.mem_cons_of_mem _ hin)
    rcases hx with hkeep | habsorbed
    · rw [hkeep] at hin
      exact absurd hin hnodup.1
    · obtain ⟨m', hm', heq⟩ := List.mem_map.mp habsorbed
      obtain ⟨hm', hauthorized⟩ := List.mem_filter.mp hm'
      obtain rfl : m' = m := List.inj_on_of_nodup_map hnodup.2 hm' hm heq
      exact hauthorized
  · intro happroved x
    have hall : absorbedIds band judge d.op.merges = d.dropIds := by
      rw [← hdrop, absorbedIds, List.filter_eq_self.mpr happroved]
    rw [hall, PlannedDedupe.allIds, List.mem_cons]

/-- The ops that raise are those of the distant components. -/
theorem raises_iff (hlists : Lists graph now s entities listing) {d : PlannedDedupe Id} (hd : OfPlan entities d)
    {op : CentroidOp Id} (hop : planCluster cfg kernels (listing d.allIds) d.allIds = some op) :
    op.raises = true ↔ Distant cfg kernels listing d := by
  obtain ⟨-, canonical, -, hcases⟩ := planCluster_spec (two_le_membersListed hlists hd) hop
  unfold CentroidOp.raises Distant membersListed
  rcases hcases with ⟨hone, hdec⟩ | ⟨hone, hclose, vector, -, hdec⟩ | ⟨hone, hclose, hdec⟩
  · simp [hdec, hone]
  · simp [hdec, hclose]
  · simp [hdec, hone, hclose]

/-- A centroid goes to the most mentioned member. -/
theorem target_spec (hlists : Lists graph now s entities listing) {d : PlannedDedupe Id} (hd : OfPlan entities d)
    {op : CentroidOp Id} (hop : planCluster cfg kernels (listing d.allIds) d.allIds = some op) {i : Id}
    (hi : op.target = some i) :
    ∃ m vector, (membersListed listing d).argmax (fun m => m.2.mentionCount) = some m ∧ m.1 = i ∧
      weightedCentroid kernels.normalize (sourcesOf (membersListed listing d)) = some vector ∧
      op.decision = .centroid i vector (sourcesOf (membersListed listing d)).length ∧
      oneConcept cfg kernels (membersListed listing d) = true ∧
      closeNames cfg kernels (membersListed listing d) = true := by
  obtain ⟨-, canonical, hcanonical, hcases⟩ := planCluster_spec (two_le_membersListed hlists hd) hop
  unfold CentroidOp.target at hi
  rcases hcases with ⟨-, hdec⟩ | ⟨hone, hclose, vector, hvector, hdec⟩ | ⟨-, -, hdec⟩
  · simp [hdec] at hi
  · rw [hdec] at hi
    obtain rfl := Option.some.inj hi
    exact ⟨canonical, vector, hcanonical, rfl, hvector, hdec, hone, hclose⟩
  · simp [hdec] at hi

theorem target_mem (hlists : Lists graph now s entities listing) {d : PlannedDedupe Id} (hd : OfPlan entities d)
    {op : CentroidOp Id} (hop : planCluster cfg kernels (listing d.allIds) d.allIds = some op) {i : Id}
    (hi : op.target = some i) : i ∈ d.allIds := by
  obtain ⟨m, -, hm, rfl, -⟩ := target_spec hlists hd hop hi
  exact of_decide_eq_true (List.mem_filter.mp (List.argmax_mem hm)).2

/-- What the current embedding of a member is. -/
theorem readCurrentEmbedding_of_mem (hlists : Lists graph now s entities listing) (hkeeps : KeepsEntities gone s s')
    {m : Id × EntityColumns Id T Embedding} (hm : m ∈ entities) :
    readCurrentEmbedding s' m.1 = m.2.embedding := by
  obtain ⟨hrow, e, he, hid, -⟩ := hlists.rows m hm
  rw [hkeeps.readCurrentEmbedding, readCurrentEmbedding, if_pos, ← hrow]
  exact List.mem_map.mpr ⟨e, he, hid⟩

omit [LinearOrder T] in
/-- The record of an op that writes. -/
theorem rewriteOf_eq_some {op : CentroidOp Id} {undo : CentroidUndo Id} (h : rewriteOf s op = some undo) :
    op.target = some undo.entityId ∧ ∀ i vector count, op.decision = .centroid i vector count →
      readCurrentEmbedding s i ≠ some vector := by
  unfold rewriteOf at h
  unfold CentroidOp.target
  cases hdec : op.decision with
  | skipSingleton => simp [hdec] at h
  | skipMultimodal i => simp [hdec] at h
  | reEmbed i text count => simp [hdec] at h
  | centroid i vector count =>
      simp only [hdec] at h
      split at h
      · cases h
      · rename_i hne
        obtain rfl := Option.some.inj h
        refine ⟨rfl, ?_⟩
        intro i' vector' count' heq
        obtain ⟨rfl, rfl, -⟩ := CentroidDecision.centroid.inj heq
        exact hne

/-- The rewrites of a run, by their components. -/
theorem mem_rewrites (hlists : Lists graph now s entities listing) (hc : CoherentOps entities dedupeOps)
    (hplan : List.Forall₂ (fun d op => planCluster cfg kernels (listing d.allIds) d.allIds = some op)
      (plannedOps dedupeOps) centroidOps) {r : CentroidOp Id × CentroidUndo Id} :
    r ∈ (applyCentroids centroidOps s').2 ↔
      ∃ before d after, plannedOps dedupeOps = before ++ d :: after ∧
        planCluster cfg kernels (listing d.allIds) d.allIds = some r.1 ∧
        (∀ d' ∈ before, ¬Distant cfg kernels listing d') ∧ rewriteOf s' r.1 = some r.2 := by
  have hdisjoint : (plannedOps dedupeOps).Pairwise fun d d' => List.Disjoint d.allIds d'.allIds :=
    hc.disjoint.sublist List.filter_sublist
  have hof : ∀ d ∈ plannedOps dedupeOps, OfPlan entities d := fun d hd => hc.each d (mem_of_mem_planned hd).1
  rw [@mem_applyCentroids Id T _ (PlannedDedupe Id)
    (fun d op => d ∈ plannedOps dedupeOps ∧ planCluster cfg kernels (listing d.allIds) d.allIds = some op)
    PlannedDedupe.allIds (fun d op op' h h' => Option.some.inj (h.2.symm.trans h'.2))
    (fun d op h i hi => target_mem hlists (hof d h.1) h.2 hi) (plannedOps dedupeOps) centroidOps
    ((List.forall₂_and_left _ _).mpr ⟨fun _ h => h, hplan⟩) hdisjoint r s']
  constructor
  · rintro ⟨before, d, after, hsplit, ⟨-, hop⟩, hbefore, hrewrite⟩
    refine ⟨before, d, after, hsplit, hop, ?_, hrewrite⟩
    intro d' hd' hdistant
    have hmem : d' ∈ plannedOps dedupeOps := by simp [hsplit, hd']
    obtain ⟨op', hop'⟩ := exists_of_forall₂ hplan hmem
    rw [← raises_iff hlists (hof d' hmem) hop', hbefore d' hd' op' ⟨hmem, hop'⟩] at hdistant
    cases hdistant
  · rintro ⟨before, d, after, hsplit, hop, hbefore, hrewrite⟩
    refine ⟨before, d, after, hsplit, ⟨by simp [hsplit], hop⟩, ?_, hrewrite⟩
    rintro d' hd' op' ⟨hmem, hop'⟩
    have hnot := hbefore d' hd'
    rw [← raises_iff hlists (hof d' hmem) hop'] at hnot
    exact Bool.eq_false_iff.mpr hnot

/-- In step, every rewrite follows its op. -/
theorem follows_of_inStep (hlists : Lists graph now s entities listing) (hc : CoherentOps entities dedupeOps)
    (hplan : List.Forall₂ (fun d op => planCluster cfg kernels (listing d.allIds) d.allIds = some op)
      (plannedOps dedupeOps) centroidOps)
    (hkeeps : KeepsEntities gone s s') (hgone : ∀ d ∈ dedupeOps, d.keepId ∉ gone)
    (hstep : InStep cfg kernels listing band judge dedupeOps) {r : CentroidOp Id × CentroidUndo Id}
    (hr : r ∈ (applyCentroids centroidOps s').2) :
    Follows kernels.normalize band judge now dedupeOps s (applyCentroids centroidOps s').1 r := by
  obtain ⟨before, d, after, hsplit, hop, hbefore, hrewrite⟩ := (mem_rewrites hlists hc hplan).mp hr
  have hd : d ∈ plannedOps dedupeOps := by simp [hsplit]
  have hof := hc.each d (mem_of_mem_planned hd).1
  obtain ⟨htarget, hstale⟩ := rewriteOf_eq_some hrewrite
  obtain ⟨m, vector, hm, hid, hvector, hdec, hone, hclose⟩ := target_spec hlists hof hop htarget
  obtain ⟨hstored, hrows, hlen⟩ := sources_of_centroid hlists hof hvector
  have hmem := hstored m (List.argmax_mem hm)
  have hids : r.1.memberIds = (membersListed listing d).map Prod.fst :=
    (planCluster_spec (two_le_membersListed hlists hof) hop).1
  have hperm : r.1.memberIds.Perm d.allIds := by
    rw [hids]
    exact ids_membersListed hlists hof
  -- the recompute was due
  have hdue : Due cfg kernels listing d := by
    refine ⟨hone, hclose, ?_⟩
    intro m' hm' heq
    obtain rfl : m' = m := Option.some.inj ((Option.mem_def.mp hm').symm.trans hm)
    apply hstale r.2.entityId vector _ hdec
    rw [← hid, readCurrentEmbedding_of_mem hlists hkeeps hmem, ← heq, hvector]
  obtain ⟨hfirst, happroved⟩ := hstep before d after hsplit hbefore hdue
  have hkeep : r.2.entityId = d.keepId := by
    rw [← hid]
    exact (argmax_eq_keepId_iff hlists hof hm).mpr hfirst
  refine ⟨?_, ⟨vector, ?_, ?_⟩, d, (mem_of_mem_planned hd).1, hperm, hkeep, ?_⟩
  · -- no op retires the canonical entity
    obtain ⟨-, e, he, heid, hlive⟩ := hlists.rows m hmem
    refine ⟨e, ?_, heid.trans hid, hlive⟩
    rw [tables_applyCentroids]
    apply hkeeps.rows e he
    rw [heid, hid, hkeep]
    exact hgone d (mem_of_mem_planned hd).1
  · rw [hdec, hids, List.length_map, hlen]
  · rw [hids, List.map_map]
    exact (congrArg (fun ms => weightedCentroid kernels.normalize (sourcesOf ms)) hrows).trans hvector
  · intro x
    rw [hperm.mem_iff]
    exact (approved_iff hc hd).mpr happroved x

/-- If every rewrite follows its op, they are in step. -/
theorem inStep_of_follows (hlists : Lists graph now s entities listing) (hc : CoherentOps entities dedupeOps)
    (hplan : List.Forall₂ (fun d op => planCluster cfg kernels (listing d.allIds) d.allIds = some op)
      (plannedOps dedupeOps) centroidOps) (hkeeps : KeepsEntities gone s s')
    (hall : ∀ r ∈ (applyCentroids centroidOps s').2, Follows kernels.normalize band judge now dedupeOps s
      (applyCentroids centroidOps s').1 r) : InStep cfg kernels listing band judge dedupeOps := by
  rintro before d after hsplit hbefore ⟨hone, hclose, hstale⟩
  have hd : d ∈ plannedOps dedupeOps := by simp [hsplit]
  have hof := hc.each d (mem_of_mem_planned hd).1
  obtain ⟨op, hop⟩ := exists_of_forall₂ hplan hd
  obtain ⟨hids, m, hm, hcases⟩ := planCluster_spec (two_le_membersListed hlists hof) hop
  obtain ⟨vector, hvector, hdec⟩ : ∃ vector, weightedCentroid kernels.normalize
      (sourcesOf (membersListed listing d)) = some vector ∧
      op.decision = .centroid m.1 vector (sourcesOf (membersListed listing d)).length := by
    rcases hcases with ⟨hno, -⟩ | ⟨-, -, hcentroid⟩ | ⟨-, hno, -⟩
    · exact absurd (hno.symm.trans hone) (by decide)
    · exact hcentroid
    · exact absurd (hno.symm.trans hclose) (by decide)
  obtain ⟨hstored, -, -⟩ := sources_of_centroid hlists hof hvector
  have hread := readCurrentEmbedding_of_mem hlists hkeeps (hstored m (List.argmax_mem hm))
  -- the op writes
  have hrewrite : rewriteOf s' op = some ⟨m.1, m.2.embedding⟩ := by
    have hne : readCurrentEmbedding s' m.1 ≠ some vector := by
      rw [hread, ← hvector]
      exact (hstale m hm).symm
    rw [rewriteOf, hdec]
    simp only
    rw [if_neg hne, hread]
  obtain ⟨-, -, d', hd', hperm, hkeep, hsources⟩ := hall (op, ⟨m.1, m.2.embedding⟩)
    ((mem_rewrites hlists hc hplan).mpr ⟨before, d, after, hsplit, hop, hbefore, hrewrite⟩)
  have hperm' : op.memberIds.Perm d.allIds := by
    rw [hids]
    exact ids_membersListed hlists hof
  -- the cluster has one op
  obtain rfl : d' = d := by
    apply hc.eq_of_shared hd' (mem_of_mem_planned hd).1 List.mem_cons_self
    exact hperm'.mem_iff.mp (hperm.mem_iff.mpr List.mem_cons_self)
  refine ⟨(argmax_eq_keepId_iff hlists hof hm).mp hkeep, (approved_iff hc hd).mp ?_⟩
  intro x
  rw [← hperm'.mem_iff]
  exact hsources x

end Run

section Plan

variable {planCfg : DreamPlanConfig} {newId : Id → Id}
  {blockAndScorePairs : List Embedding → List String → ℚ → List (ℕ × ℕ × ℚ)}
  {entities : List (Id × EntityColumns Id T Embedding)}

theorem coherentOps_plan (hk : ScoresPairs blockAndScorePairs) (hids : (entities.map Prod.fst).Nodup) :
    CoherentOps entities (planVectorcypherDedupeEntities planCfg newId blockAndScorePairs entities) := by
  have hpartitions := @partitions_plan _ _ _ _ _ planCfg newId blockAndScorePairs entities hk hids
  have hall := List.nodup_flatMap.mp (@allIds_nodup _ _ _ _ _ planCfg newId blockAndScorePairs entities hk hids)
  constructor
  · intro d hd
    obtain ⟨hembedded, habsorbs⟩ := members_of_mem_plan hk hids hd
    exact ⟨hall.1 d hd, keepId_mostMentioned hk hids hd, hembedded, habsorbs⟩
  · exact hall.2
  · exact fun d hd => (hpartitions.merges d hd).1
  · exact fun d hd => (hpartitions.merges d hd).2

omit [LinearOrder T] in
/-- The ops before the recomputes are those of the dedupe, and others that retire nothing. -/
theorem graphOps_spec {s : VectorCypherStore Id T Embedding} {dedupeOps : List (PlannedDedupe Id)}
    {band : VerifierBand} {judge : MergeEntry Id → VerifierDecision} (hc : CoherentOps entities dedupeOps)
    {op : VectorCypherOp Id} (hop : op ∈ graphOps planCfg dedupeOps s) :
    OneCanonical op ∧ ∀ x ∈ retires band judge op, ∃ d ∈ dedupeOps, x ∈ d.dropIds := by
  rcases List.mem_append.mp hop with hop | hop
  · rcases List.mem_append.mp hop with hop | hop
    · split at hop
      · obtain ⟨e, -, rfl⟩ := List.mem_map.mp hop
        exact ⟨trivial, fun _ h => absurd h List.not_mem_nil⟩
      · cases hop
    · obtain ⟨d, hd, rfl⟩ := List.mem_map.mp hop
      refine ⟨⟨d.keepId, hc.canonical d hd⟩, ?_⟩
      intro x hx
      have habsorbed : x ∈ d.op.merges.map MergeEntry.absorbedId := (List.filter_sublist.map _).subset hx
      rw [hc.absorbed d hd] at habsorbed
      split at habsorbed
      · exact ⟨d, hd, habsorbed⟩
      · cases habsorbed
  · split at hop
    · obtain ⟨e, -, rfl⟩ := List.mem_map.mp hop
      exact ⟨trivial, fun _ h => absurd h List.not_mem_nil⟩
    · cases hop

/-- **The centroids follow the dedupe of their plan exactly when they are in step with it.**  For every list of
entities, every order of the listings and every verifier: after the plan is applied, each entity whose embedding a
recompute rewrote is live, the canonical one of its component, and has the centroid of itself and of those it absorbed,
if and only if each due recompute has its canonical member listed before all others with as many mentions, and no merge
of its component deferred. -/
theorem centroid_exact (cfg : CentroidConfig) (kernels : CentroidKernels) (hk : ScoresPairs blockAndScorePairs)
    (graph : Bool) (now : T) (s : VectorCypherStore Id T Embedding)
    (listing : List Id → List (Id × EntityColumns Id T Embedding)) (hlists : Lists graph now s entities listing)
    (band : VerifierBand) (judge : MergeEntry Id → VerifierDecision)
    {plan : List (VectorCypherOp Id) × List (CentroidOp Id)}
    (hplan : planDream planCfg cfg kernels newId blockAndScorePairs entities listing s = some plan) :
    let dedupeOps := planVectorcypherDedupeEntities planCfg newId blockAndScorePairs entities
    let final := applyDream band judge now plan s
    (∀ r ∈ final.2, Follows kernels.normalize band judge now dedupeOps s final.1 r) ↔
      InStep cfg kernels listing band judge dedupeOps := by
  have hc := @coherentOps_plan _ _ _ _ planCfg newId blockAndScorePairs entities hk hlists.distinct
  have hkept := (@partitions_plan _ _ _ _ _ planCfg newId blockAndScorePairs entities hk hlists.distinct).canonicalKept
  intro dedupeOps final
  obtain ⟨centroidOps, hcentroid, rfl⟩ := Option.map_eq_some_iff.mp hplan
  rw [mergeClusters_eq hc, planCentroidRecompute_eq_some, List.forall₂_map_left_iff] at hcentroid
  have hops := fun op => @graphOps_spec _ _ _ planCfg entities s dedupeOps band judge hc op
  have hkeeps := keepsEntities_phase band judge now (fun op hop => (hops op hop).1) s
  have hgone : ∀ d ∈ dedupeOps, d.keepId ∉ (graphOps planCfg dedupeOps s).flatMap (retires band judge) := by
    intro d hd hmem
    obtain ⟨op, hop, hx⟩ := List.mem_flatMap.mp hmem
    obtain ⟨d', hd', hdrop⟩ := (hops op hop).2 _ hx
    exact hkept d hd d' hd' hdrop
  constructor
  · exact inStep_of_follows hlists hc hcentroid hkeeps
  · exact fun hstep r hr => follows_of_inStep hlists hc hcentroid hkeeps hgone hstep hr

end Plan

end Exact

/-! ## Two entities with as many mentions -/

/-- The first two rows are a pair. -/
def firstPair (embeddings : List Embedding) (_names : List String) (_threshold : ℚ) : List (ℕ × ℕ × ℚ) :=
  if 2 ≤ embeddings.length then [(0, 1, 1)] else []

theorem scoresPairs_firstPair : ScoresPairs firstPair := by
  have hmem : ∀ {embeddings names threshold p}, p ∈ firstPair embeddings names threshold →
      2 ≤ embeddings.length ∧ p = (0, 1, 1) := by
    intro embeddings names threshold p hp
    unfold firstPair at hp
    split at hp
    · rename_i hlen
      exact ⟨hlen, List.mem_singleton.mp hp⟩
    · cases hp
  constructor
  · intro embeddings names threshold _ p hp
    obtain ⟨hlen, rfl⟩ := hmem hp
    exact ⟨Nat.lt_of_lt_of_le Nat.zero_lt_two hlen, hlen, Nat.zero_ne_one⟩
  · intro embeddings names threshold p hp q hq _
    rw [(hmem hp).2, (hmem hq).2]

/-- Two entities; the older one, with three mentions, stands second in the alphabet. -/
def adas (mentions : ℕ) : List (ℕ × EntityColumns ℕ ℕ Embedding) :=
  [(1, ⟨"Ada", "PERSON", mentions, 5, some ⟨[1], by decide⟩, []⟩),
    (2, ⟨"Adas", "PERSON", 3, 1, some ⟨[2], by decide⟩, []⟩)]

def adasStore (mentions : ℕ) : VectorCypherStore ℕ ℕ Embedding where
  tables := ⟨⟨[], List.nodup_nil⟩, ⟨[⟨1, none⟩, ⟨2, none⟩], by decide⟩⟩
  edges _ := ⟨0, none, []⟩
  entities i := if i = 1 then ⟨"Ada", "PERSON", mentions, 5, some ⟨[1], by decide⟩, []⟩
    else ⟨"Adas", "PERSON", 3, 1, some ⟨[2], by decide⟩, []⟩
  chunks := []

/-- The other one has as many. -/
def tied : List (ℕ × EntityColumns ℕ ℕ Embedding) := adas 3

def tiedStore : VectorCypherStore ℕ ℕ Embedding := adasStore 3

/-- Kernels that find any two entities alike. -/
def alike : CentroidKernels where
  levenshtein _ _ := 1
  pairwiseCosines _ := [1]
  normalize v := v

/-- The two are one component, and the older one absorbs the other. -/
def adaMerge : PlannedDedupe ℕ where
  op := ⟨2, [⟨2, 1, some 1⟩]⟩
  decision := .planned
  entityType := "PERSON"
  threshold := 0
  similarityScore := some 1
  keepId := 2
  dropIds := [1]
  survivingName := "Adas"
  componentSize := 2
  collision := none

theorem plan_adas (mentions : ℕ) : planVectorcypherDedupeEntities dedupeOnly id firstPair (adas mentions) =
    (buildComponentOp dedupeOnly id "PERSON" [(0, 1, 1)] (adas mentions)
      (membersOf (adas mentions) [0, 1])).toList := by
  have hsort : sortEntities (adas mentions) = adas mentions := List.mergeSort_of_pairwise (by
    simp [adas]
    decide)
  have htypes : bucketTypes (adas mentions) = ["PERSON"] := List.mergeSort_singleton _
  have hcandidates : candidatePairs dedupeOnly firstPair (bucketOf (adas mentions) "PERSON") "PERSON" =
      [(0, 1, 1)] := List.mergeSort_singleton _
  have hcomponents : UnionFind.connectedComponents 2 [(0, 1, 1)] = [[0, 1]] := by
    have htouched : UnionFind.touched [(0, 1, 1)] = [0, 1] := List.mergeSort_of_pairwise (by decide)
    unfold UnionFind.connectedComponents
    simp only
    rw [htouched]
    show ([List.mergeSort [0, 1] _].mergeSort _) = _
    rw [List.mergeSort_singleton, List.mergeSort_of_pairwise (by decide)]
  unfold planVectorcypherDedupeEntities DedupePlan.planBucket componentsOf
  simp only
  rw [hsort, htypes, List.flatMap_singleton, hcandidates]
  show List.filterMap _ (UnionFind.connectedComponents 2 [(0, 1, 1)]) = _
  rw [hcomponents]
  exact List.filterMap_cons_some rfl

theorem plan_tied : planVectorcypherDedupeEntities dedupeOnly id firstPair tied = [adaMerge] :=
  (plan_adas 3).trans rfl

/-- The dedupe keeps the older entity, the recompute writes to the one that is listed first. -/
def tiedPlan : List (VectorCypherOp ℕ) × List (CentroidOp ℕ) :=
  ([.dedupeEntities ⟨2, [⟨2, 1, some 1⟩]⟩], [⟨2, [1, 2], .centroid 1 ⟨[3 / 2], by decide⟩ 2⟩])

/-- The op of the cluster rewrites its canonical entity. -/
theorem planCluster_adas {mentions canonical : ℕ} {columns : EntityColumns ℕ ℕ Embedding} {vector : Embedding}
    (hcanonical : (adas mentions).argmax (fun m => m.2.mentionCount) = some (canonical, columns))
    (hvector : weightedCentroid alike.normalize (sourcesOf (adas mentions)) = some vector) :
    planCluster ⟨2, 9 / 10⟩ alike (adas mentions) [2, 1] = some ⟨2, [1, 2], .centroid canonical vector 2⟩ := by
  have hmembers : loadMembers (adas mentions) [2, 1] = adas mentions := rfl
  have hone : oneConcept ⟨2, 9 / 10⟩ alike (adas mentions) = true := by
    show decide ((9 / 10 : ℚ) ≤ 1) = true
    decide +kernel
  have hclose : closeNames ⟨2, 9 / 10⟩ alike (adas mentions) = true := rfl
  unfold planCluster
  simp only
  rw [hmembers, hone, hclose, hvector, hcanonical]
  rfl

/-- The run of the two ops. -/
theorem planDream_adas {mentions : ℕ} {op : CentroidOp ℕ}
    (hplan : planVectorcypherDedupeEntities dedupeOnly id firstPair (adas mentions) = [adaMerge])
    (hcluster : planCluster ⟨2, 9 / 10⟩ alike (adas mentions) [2, 1] = some op) :
    planDream dedupeOnly ⟨2, 9 / 10⟩ alike id firstPair (adas mentions) (fun _ => adas mentions)
      (adasStore mentions) = some ([.dedupeEntities adaMerge.op], [op]) := by
  unfold planDream
  rw [hplan]
  show (planCentroidRecompute ⟨2, 9 / 10⟩ alike (fun _ => adas mentions) [[2, 1]]).map _ = _
  rw [planCentroidRecompute, hcluster]
  rfl

theorem planDream_tied : planDream dedupeOnly ⟨2, 9 / 10⟩ alike id firstPair tied (fun _ => tied) tiedStore =
    some tiedPlan := by
  refine planDream_adas plan_tied (planCluster_adas rfl (congrArg some (Subtype.ext ?_)))
  decide +kernel

/-- The canonical entity of the component is 2; the centroid goes to entity 1, which is retired. -/
theorem tiedMentions_diverge : ∃ plan,
    planDream dedupeOnly ⟨2, 9 / 10⟩ alike id firstPair tied (fun _ => tied) tiedStore = some plan ∧
      ¬ ∀ r ∈ (applyDream ⟨0, 0⟩ (fun _ => .merge) 9 plan tiedStore).2,
        Follows alike.normalize ⟨0, 0⟩ (fun _ => .merge) 9
          (planVectorcypherDedupeEntities dedupeOnly id firstPair tied) tiedStore
          (applyDream ⟨0, 0⟩ (fun _ => .merge) 9 plan tiedStore).1 r := by
  refine ⟨tiedPlan, planDream_tied, ?_⟩
  intro hall
  have hmem : ((⟨2, [1, 2], .centroid 1 ⟨[3 / 2], by decide⟩ 2⟩, ⟨1, some ⟨[1], by decide⟩⟩) :
      CentroidOp ℕ × CentroidUndo ℕ) ∈ (applyDream ⟨0, 0⟩ (fun _ => .merge) 9 tiedPlan tiedStore).2 := by
    have hrun : (applyDream ⟨0, 0⟩ (fun _ => .merge) 9 tiedPlan tiedStore).2 =
        [(⟨2, [1, 2], .centroid 1 ⟨[3 / 2], by decide⟩ 2⟩, ⟨1, some ⟨[1], by decide⟩⟩)] := by
      have hne : (some ⟨[1], by decide⟩ : Option Embedding) ≠ some ⟨[3 / 2], by decide⟩ := by decide +kernel
      show (applyCentroids [⟨2, [1, 2], .centroid 1 ⟨[3 / 2], by decide⟩ 2⟩]
        (tiedStore.handle ⟨0, 0⟩ (fun _ => .merge) 9 (.dedupeEntities ⟨2, [⟨2, 1, some 1⟩]⟩))).2 = _
      have hread : readCurrentEmbedding (tiedStore.handle ⟨0, 0⟩ (fun _ => .merge) 9
        (.dedupeEntities ⟨2, [⟨2, 1, some 1⟩]⟩)) 1 = some ⟨[1], by decide⟩ := rfl
      simp only [applyCentroids, applyCentroid, hread, if_neg hne]
      rfl
    rw [hrun]
    exact List.mem_singleton_self _
  obtain ⟨-, -, d, hd, -, hkeep, -⟩ := hall _ hmem
  rw [plan_tied, List.mem_singleton] at hd
  rw [hd] at hkeep
  exact absurd hkeep (by decide)

theorem lists_adas (mentions : ℕ) : Lists false 9 (adasStore mentions) (adas mentions) fun _ => adas mentions where
  distinct := by simp [adas]
  rows := by
    intro e he
    rcases List.mem_cons.mp he with rfl | he
    · exact ⟨rfl, ⟨1, none⟩, by simp [adasStore], rfl, fun u hu => by cases hu⟩
    · obtain rfl := List.mem_singleton.mp he
      exact ⟨rfl, ⟨2, none⟩, by simp [adasStore], rfl, fun u hu => by cases hu⟩
  again _ := List.Perm.refl _

/-- With two mentions against three, the older entity is the canonical one of both ops. -/
def ledPlan : List (VectorCypherOp ℕ) × List (CentroidOp ℕ) :=
  ([.dedupeEntities ⟨2, [⟨2, 1, some 1⟩]⟩], [⟨2, [1, 2], .centroid 2 ⟨[8 / 5], by decide⟩ 2⟩])

theorem planDream_led : planDream dedupeOnly ⟨2, 9 / 10⟩ alike id firstPair (adas 2) (fun _ => adas 2)
    (adasStore 2) = some ledPlan := by
  refine planDream_adas ((plan_adas 2).trans rfl) (planCluster_adas rfl (congrArg some (Subtype.ext ?_)))
  decide +kernel

/-- The rewritten entity is live, the canonical one, and has the centroid of both. -/
theorem centroid_exact_led :
    planDream dedupeOnly ⟨2, 9 / 10⟩ alike id firstPair (adas 2) (fun _ => adas 2) (adasStore 2) = some ledPlan ∧
      ∀ r ∈ (applyDream ⟨0, 0⟩ (fun _ => .merge) 9 ledPlan (adasStore 2)).2,
        Follows alike.normalize ⟨0, 0⟩ (fun _ => .merge) 9
          (planVectorcypherDedupeEntities dedupeOnly id firstPair (adas 2)) (adasStore 2)
          (applyDream ⟨0, 0⟩ (fun _ => .merge) 9 ledPlan (adasStore 2)).1 r := by
  have hplan : planVectorcypherDedupeEntities dedupeOnly id firstPair (adas 2) = [adaMerge] :=
    (plan_adas 2).trans rfl
  refine ⟨planDream_led, (centroid_exact ⟨2, 9 / 10⟩ alike scoresPairs_firstPair false 9 (adasStore 2)
    (fun _ => adas 2) (lists_adas 2) ⟨0, 0⟩ (fun _ => .merge) planDream_led).mpr ?_⟩
  intro before d after hd _ _
  rw [hplan] at hd
  have hmem : d ∈ plannedOps [adaMerge] := by simp [hd]
  obtain rfl := List.mem_singleton.mp (List.mem_of_mem_filter hmem)
  refine ⟨⟨[_], _, [], rfl, rfl, by decide⟩, ?_⟩
  intro m hm
  obtain rfl := List.mem_singleton.mp hm
  decide +kernel

end CentroidRecompute

end Khora
