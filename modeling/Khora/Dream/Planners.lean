import Khora.Dream.ApplyPhase
import Khora.Dream.DedupeEntities
import Khora.Lib.Grouping
import Mathlib.Data.List.Lex
import Mathlib.Data.Prod.Lex
import Mathlib.Data.String.Basic
import Mathlib.Order.Defs.LinearOrder

/-!
# What a dream run plans, and what its handlers do

`plan_dream` reads the store and emits one op for each edge to prune, component of duplicate
entities to merge, array of chunk ids to clean, stale fact to reclaim and cluster of events to
merge.  A handler first looks whether its effect is there and then changes nothing.

Floats are rationals; the similarity kernels are parameters.  A row's columns that a handler of
another kind writes are kept beside its table, by id.

* `prune_missing`, `gc_missing`, `compact_missing`, `cluster_missing` — a planner emits only ops
  whose effect the store does not have; a merge may be there already.
-/

namespace Khora

variable {Id T V : Type}

/-- The settings and the scope that the planners read. -/
structure DreamPlanConfig where
  /-- the op kind is in the resolved scope and its switch is on -/
  wanted : OpKind → Bool
  pruneTargetPredicates : List String
  pruneConfidenceThreshold : ℚ
  dedupeDefaultThreshold : ℚ
  dedupePerTypeThresholds : List (String × ℚ)
  gcMinDead : ℤ
  clusteringCosineThreshold : ℚ
  /-- the clustering window, in the unit of the dates -/
  clusteringWindow : ℤ
  band : VerifierBand

/-! ## Union-find -/

/-- `union(a, b)` on the roots of the indices. -/
def uniteRoots (roots : List ℕ) (a b : ℕ) : List ℕ :=
  roots.map fun r => if r = roots.getD a a then roots.getD b b else r

/-- Indices with one root are a group; the groups in the order of their first indices. -/
def groupRoots (indices roots : List ℕ) : List (List ℕ) :=
  ((indices.map fun i => roots.getD i i).eraseDups).map fun root =>
    indices.filter fun i => roots.getD i i = root

/-! ## The store of the VectorCypher engine -/

/-- The columns of an edge that pruning reads or writes. -/
structure EdgeColumns (Id T : Type) where
  confidence : ℚ
  validTo : Option T
  sourceChunkIds : List Id

/-- The columns of an entity that the planners read and the clean-up writes. -/
structure EntityColumns (Id T V : Type) where
  name : String
  entityType : String
  mentionCount : ℤ
  createdAt : T
  embedding : Option V
  sourceChunkIds : List Id

/-- The tables of one namespace. -/
structure VectorCypherStore (Id T V : Type) where
  tables : DreamTables Id T
  edges : Id → EdgeColumns Id T
  entities : Id → EntityColumns Id T V
  chunks : List Id

/-- A planned op, with what its handler reads. -/
inductive VectorCypherOp (Id : Type) where
  | pruneEdge (relationship : Id)
  | dedupeEntities (op : DedupeOp Id)
  | sourceChunkIdsGc (entity : Id) (after : List Id)

def VectorCypherOp.kind : VectorCypherOp Id → OpKind
  | .pruneEdge _ => .vectorcypherPruneEdges
  | .dedupeEntities _ => .vectorcypherDedupeEntities
  | .sourceChunkIdsGc .. => .vectorcypherSourceChunkIdsGc

namespace VectorCypherStore

section Plan

variable (cfg : DreamPlanConfig)

section Rows

variable [DecidableEq Id]

/-- The predicate of `_collect_candidates`. -/
def prunes (s : VectorCypherStore Id T V) (r : Relationship Id T) : Bool :=
  let edge := s.edges r.id
  cfg.pruneTargetPredicates.contains r.relationshipType &&
    decide (edge.confidence < cfg.pruneConfidenceThreshold) && edge.validTo.isNone &&
    edge.sourceChunkIds.all fun c => !s.chunks.contains c

/-- `plan_vectorcypher_prune_edges` -/
def planPruneEdges (s : VectorCypherStore Id T V) : List (VectorCypherOp Id) :=
  (s.tables.relationships.rows.filter (s.prunes cfg)).map fun r => .pruneEdge r.id

/-- The dead references of an entity. -/
def deadChunkIds (s : VectorCypherStore Id T V) (entity : Id) : List Id :=
  (s.entities entity).sourceChunkIds.filter fun c => !s.chunks.contains c

/-- The surviving references of an entity. -/
def liveChunkIds (s : VectorCypherStore Id T V) (entity : Id) : List Id :=
  (s.entities entity).sourceChunkIds.filter fun c => s.chunks.contains c

/-- `plan_vectorcypher_source_chunk_ids_gc` -/
def planSourceChunkIdsGc (s : VectorCypherStore Id T V) : List (VectorCypherOp Id) :=
  (s.tables.entities.rows.filter fun e => decide (max 1 cfg.gcMinDead ≤ (s.deadChunkIds e.id).length)).map
    fun e => .sourceChunkIdsGc e.id (s.liveChunkIds e.id)

end Rows

/-! ### Duplicate entities -/

variable [LinearOrder Id] [LinearOrder T]

/-- `list_entities` at a time: the live rows by name, at most 100 000. -/
def listEntities (now : T) (s : VectorCypherStore Id T V) : List (Id × EntityColumns Id T V) :=
  (((s.tables.entities.rows.filter fun e => e.validUntil.all fun u => decide (now < u)).map
    fun e => (e.id, s.entities e.id)).mergeSort fun a b => decide (a.2.name ≤ b.2.name)).take 100000

/-- `sorted(entities, key=lambda e: (e.name, e.entity_type, str(e.id)))` -/
def sortEntities (entities : List (Id × EntityColumns Id T V)) : List (Id × EntityColumns Id T V) :=
  entities.mergeSort fun a b => decide
    (toLex (a.2.name, toLex (a.2.entityType, a.1)) ≤ toLex (b.2.name, toLex (b.2.entityType, b.1)))

/-- `_connected_components` -/
def connectedComponents (n : ℕ) (pairs : List (ℕ × ℕ × ℚ)) : List (List ℕ) :=
  groupRoots ((List.range n).filter fun i => pairs.any fun p => p.1 = i || p.2.1 = i)
    (pairs.foldl (fun roots p => uniteRoots roots p.1 p.2.1) (List.range n))

/-- `_best_pair_scores`: a later pair wins. -/
def bestPairScore (pairs : List (ℕ × ℕ × ℚ)) (i j : ℕ) : Option ℚ :=
  (pairs.reverse.find? fun p => p.1 = i && p.2.1 = j || p.1 = j && p.2.1 = i).map fun p => p.2.2

/-- `member_score`: the direct edge to the canonical, else the strongest edge of the member. -/
def memberScore (pairs : List (ℕ × ℕ × ℚ)) (threshold : ℚ) (member canonical : ℕ) : ℚ :=
  (bestPairScore pairs member canonical).getD
    ((((pairs.filter fun p => p.1 = member || p.2.1 = member).filterMap
      fun p => bestPairScore pairs p.1 p.2.1).max?).getD threshold)

/-- `_pick_canonical`: `min` by mentions (most first), age and id. -/
def pickCanonical : List (ℕ × Id × EntityColumns Id T V) → Option (ℕ × Id × EntityColumns Id T V)
  | [] => none
  | m :: ms => some <| ms.foldl (fun best e =>
      if toLex (-e.2.2.mentionCount, toLex (e.2.2.createdAt, e.2.1)) <
          toLex (-best.2.2.mentionCount, toLex (best.2.2.createdAt, best.2.1)) then e else best) m

/-- `_build_component_op`: a component whose surviving name is taken by an entity outside it has
no merges. -/
def buildComponentOp (newId : Id → Id) (entityType : String) (threshold : ℚ) (pairs : List (ℕ × ℕ × ℚ))
    (listed : List (Id × EntityColumns Id T V)) (members : List (ℕ × Id × EntityColumns Id T V)) :
    Option (DedupeOp Id) :=
  (pickCanonical members).map fun canonical =>
    let collides := listed.any fun e => e.2.name = canonical.2.2.name && e.2.entityType = entityType &&
      !(members.map fun m => m.2.1).contains e.1
    let absorbed := members.filter fun m => m.2.1 ≠ canonical.2.1
    { opId := newId canonical.2.1
      merges :=
        if collides then []
        else absorbed.map fun m =>
          ⟨canonical.2.1, m.2.1, some (memberScore pairs threshold m.1 canonical.1)⟩ }

variable (newId : Id → Id) (blockAndScorePairs : List V → List String → ℚ → List (ℕ × ℕ × ℚ))

/-- The ops of one bucket of entities with embeddings. -/
def planBucket (listed : List (Id × EntityColumns Id T V)) (entityType : String) : List (DedupeOp Id) :=
  let bucket := listed.filter fun e => e.2.entityType = entityType && e.2.embedding.isSome
  let threshold := ((cfg.dedupePerTypeThresholds.find? fun t => t.1 = entityType).map Prod.snd).getD
    cfg.dedupeDefaultThreshold
  let pairs := (blockAndScorePairs (bucket.filterMap fun e => e.2.embedding) (bucket.map fun e => e.2.name)
    threshold).mergeSort fun p q => decide (toLex (p.1, p.2.1) ≤ toLex (q.1, q.2.1))
  if bucket.length < 2 then []
  else (connectedComponents bucket.length pairs).filterMap fun indices =>
    buildComponentOp newId entityType threshold pairs listed
      (indices.filterMap fun i => bucket[i]?.map fun e => (i, e))

/-- The components of `plan_vectorcypher_dedupe_entities`. -/
def duplicateComponents (now : T) (s : VectorCypherStore Id T V) : List (DedupeOp Id) :=
  let listed := sortEntities (s.listEntities now)
  let types := ((listed.filter fun e => e.2.embedding.isSome).map fun e => e.2.entityType).eraseDups
  (types.mergeSort fun a b => decide (a ≤ b)).flatMap (planBucket cfg newId blockAndScorePairs listed)

/-- `_VectorCypherPlugin.plan_dream`, as far as the three mutations go. -/
def planDream (now : T) (s : VectorCypherStore Id T V) : List (VectorCypherOp Id) :=
  (if cfg.wanted .vectorcypherPruneEdges then s.planPruneEdges cfg else []) ++
  (if cfg.wanted .vectorcypherDedupeEntities then
    (s.duplicateComponents cfg newId blockAndScorePairs now).map .dedupeEntities else []) ++
  (if cfg.wanted .vectorcypherSourceChunkIdsGc then s.planSourceChunkIdsGc cfg else [])

end Plan

section Handle

variable [DecidableEq Id]

/-- `apply_vectorcypher_prune_edges` -/
def applyPruneEdge (now : T) (relationship : Id) (s : VectorCypherStore Id T V) : VectorCypherStore Id T V :=
  if relationship ∈ s.tables.relationships.rows.map Relationship.id ∧ (s.edges relationship).validTo.isNone then
    { s with edges := fun i => if i = relationship then { s.edges i with validTo := some now } else s.edges i }
  else s

/-- `apply_vectorcypher_source_chunk_ids_gc` -/
def applySourceChunkIdsGc (entity : Id) (after : List Id) (s : VectorCypherStore Id T V) :
    VectorCypherStore Id T V :=
  if entity ∈ s.tables.entities.rows.map Entity.id ∧ (s.entities entity).sourceChunkIds ≠ after then
    { s with entities := fun i => if i = entity then { s.entities i with sourceChunkIds := after } else s.entities i }
  else s

/-- The handler of an op. -/
def handle (band : VerifierBand) (judge : MergeEntry Id → VerifierDecision) (now : T) :
    VectorCypherOp Id → VectorCypherStore Id T V → VectorCypherStore Id T V
  | .pruneEdge r, s => s.applyPruneEdge now r
  | .dedupeEntities op, s => { s with tables := (applyVectorcypherDedupeEntities band judge now op s.tables).1 }
  | .sourceChunkIdsGc e after, s => s.applySourceChunkIdsGc e after

/-- The absorbed entity of a merge is retired and no live edge touches it. -/
def Merged (s : VectorCypherStore Id T V) (entry : MergeEntry Id) : Prop :=
  (∀ e ∈ s.tables.entities.rows, e.id = entry.absorbedId → e.validUntil.isSome = true) ∧
    selectRelationshipsTouching s.tables.relationships entry.absorbedId = []

/-- The effect of an op is in the store. -/
def Present (s : VectorCypherStore Id T V) : VectorCypherOp Id → Prop
  | .pruneEdge r => r ∈ s.tables.relationships.rows.map Relationship.id → (s.edges r).validTo.isSome = true
  | .dedupeEntities op => ∀ entry ∈ op.merges, s.Merged entry
  | .sourceChunkIdsGc e after =>
      e ∈ s.tables.entities.rows.map Entity.id → (s.entities e).sourceChunkIds = after

end Handle

end VectorCypherStore

/-! ## The store of the Chronicle engine -/

/-- The columns of `memory_facts` that compaction reads. -/
structure FactRow (Id T : Type) where
  id : Id
  isActive : Bool
  invalidatedAt : Option T
  updatedAt : T

/-- The columns of `chronicle_events` that clustering reads or writes. -/
structure EventRow (Id T V : Type) where
  id : Id
  subject : String
  referencedDate : Option ℤ
  observationDate : ℤ
  confidence : ℚ
  embedding : Option V
  invalidatedAt : Option T
  invalidatedBy : Option Id
  mergedIntoEventId : Option Id

/-- The tables of one namespace. -/
structure ChronicleStore (Id T V : Type) where
  facts : List (FactRow Id T)
  events : Table Id (EventRow Id T V) EventRow.id

inductive ChronicleOp (Id : Type) where
  | factCompaction (fact : Id)
  | eventClustering (opId canonical : Id) (mergedEventIds : List Id)

def ChronicleOp.kind : ChronicleOp Id → OpKind
  | .factCompaction _ => .chronicleFactCompaction
  | .eventClustering .. => .chronicleEventClustering

namespace ChronicleStore

section Plan

variable (cfg : DreamPlanConfig)

/-- `COALESCE(invalidated_at, updated_at)` -/
def marker (f : FactRow Id T) : T := f.invalidatedAt.getD f.updatedAt

/-- `_select_candidates`, before a time. -/
def staleFacts [LinearOrder T] (threshold : T) (s : ChronicleStore Id T V) : List (FactRow Id T) :=
  (s.facts.filter fun f => (!f.isActive || f.invalidatedAt.isSome) && decide (marker f < threshold)).mergeSort
    fun f g => decide (marker f ≤ marker g)

/-- The rows of `_fetch_events`. -/
def clusterable (s : ChronicleStore Id T V) : List (EventRow Id T V) :=
  s.events.rows.filter fun r => r.embedding.isSome && r.referencedDate.isSome && r.invalidatedAt.isNone

/-- Two rows of a bucket merge: they are similar and within the window. -/
def near (cosine : V → V → ℚ) (a b : EventRow Id T V) : Bool :=
  match a.embedding, b.embedding, a.referencedDate, b.referencedDate with
  | some u, some v, some x, some y =>
      decide (cfg.clusteringCosineThreshold ≤ cosine u v) && decide (|x - y| ≤ cfg.clusteringWindow)
  | _, _, _, _ => false

/-- The roots after the loops over a bucket. -/
def bucketRoots (cosine : V → V → ℚ) (bucket : List (EventRow Id T V)) : List ℕ :=
  let n := bucket.length
  ((List.range n).flatMap fun i => (List.range n).filterMap fun j =>
    match bucket[i]?, bucket[j]? with
    | some a, some b => if i < j && near cfg cosine a b then some (i, j) else none
    | _, _ => none).foldl (fun roots p => uniteRoots roots p.1 p.2) (List.range n)

/-- `_cluster_events` -/
def clusterEvents (cosine : V → V → ℚ) (rows : List (EventRow Id T V)) : List (List (EventRow Id T V)) :=
  ((rows.map EventRow.subject).eraseDups).flatMap fun subject =>
    let bucket := rows.filter fun r => r.subject = subject
    ((groupRoots (List.range bucket.length) (bucketRoots cfg cosine bucket)).map
      fun indices => indices.filterMap fun i => bucket[i]?).filter fun members => 2 ≤ members.length

/-- The canonical row of a cluster: `max` by confidence, date and id (least first). -/
def canonicalEvent [LinearOrder Id] : List (EventRow Id T V) → Option (EventRow Id T V)
  | [] => none
  | r :: rs => some <| rs.foldl (fun best e =>
      if best.confidence < e.confidence ∨ best.confidence = e.confidence ∧
          (best.observationDate < e.observationDate ∨
            best.observationDate = e.observationDate ∧ e.id < best.id) then e else best) r

/-- `_build_op` -/
def buildOp [LinearOrder Id] (newId : Id → Id) (cluster : List (EventRow Id T V)) : Option (ChronicleOp Id) :=
  (canonicalEvent cluster).map fun c => .eventClustering (newId c.id) c.id (cluster.map EventRow.id)

variable (newId : Id → Id) (cosine : V → V → ℚ)

/-- `plan_chronicle_fact_compaction` -/
def planFactCompaction [LinearOrder T] (threshold : T) (s : ChronicleStore Id T V) : List (ChronicleOp Id) :=
  (s.staleFacts threshold).map fun f => .factCompaction f.id

/-- `plan_chronicle_event_clustering` -/
def planEventClustering [LinearOrder Id] (s : ChronicleStore Id T V) : List (ChronicleOp Id) :=
  (clusterEvents cfg cosine s.clusterable).filterMap (buildOp newId)

/-- `_ChroniclePlugin.plan_dream`, as far as the two mutations go; facts are stale before
`threshold`. -/
def planDream [LinearOrder Id] [LinearOrder T] (threshold : T) (s : ChronicleStore Id T V) : List (ChronicleOp Id) :=
  (if cfg.wanted .chronicleFactCompaction then s.planFactCompaction threshold else []) ++
  (if cfg.wanted .chronicleEventClustering then s.planEventClustering cfg newId cosine else [])

end Plan

section Handle

variable [DecidableEq Id]

/-- The statement of `_soft_merge_tails` for one tail. -/
def softMerge (now : T) (opId canonical : Id) (t : Table Id (EventRow Id T V) EventRow.id) (tail : Id) :
    Table Id (EventRow Id T V) EventRow.id :=
  t.update (fun r => r.id = tail && r.invalidatedAt.isNone)
    (fun r => { r with invalidatedAt := some now, invalidatedBy := some opId, mergedIntoEventId := some canonical })
    fun _ => rfl

/-- The tails of a cluster. -/
def tails (canonical : Id) (mergedEventIds : List Id) : List Id :=
  mergedEventIds.filter fun i => i ≠ canonical

/-- The handler of an op. -/
def handle (now : T) : ChronicleOp Id → ChronicleStore Id T V → ChronicleStore Id T V
  | .factCompaction fact, s => { s with facts := s.facts.filter fun f => f.id ≠ fact }
  | .eventClustering opId canonical ids, s =>
      { s with events := (tails canonical ids).foldl (softMerge now opId canonical) s.events }

/-- The effect of an op is in the store. -/
def Present (s : ChronicleStore Id T V) : ChronicleOp Id → Prop
  | .factCompaction fact => ∀ f ∈ s.facts, f.id ≠ fact
  | .eventClustering _ canonical ids =>
      ∀ tail ∈ tails canonical ids, ∀ r ∈ s.events.rows, r.id = tail → r.invalidatedAt.isSome = true

end Handle

end ChronicleStore

/-! ## A planner finds what is missing -/

section Missing

variable {cfg : DreamPlanConfig}

namespace VectorCypherStore

variable {s : VectorCypherStore Id T V} {op : VectorCypherOp Id}

/-- A planned edge is live. -/
theorem prune_missing [DecidableEq Id] (h : op ∈ s.planPruneEdges cfg) : ¬s.Present op := by
  obtain ⟨r, hr, rfl⟩ := List.mem_map.mp h
  obtain ⟨hrow, hprunes⟩ := List.mem_filter.mp hr
  unfold prunes at hprunes
  rw [Bool.and_eq_true, Bool.and_eq_true] at hprunes
  intro hpresent
  have hsome := hpresent (List.mem_map_of_mem hrow)
  rw [Option.isNone_iff_eq_none.mp hprunes.1.2] at hsome
  cases hsome

/-- A planned array has a dead reference. -/
theorem gc_missing [DecidableEq Id] (h : op ∈ s.planSourceChunkIdsGc cfg) : ¬s.Present op := by
  obtain ⟨e, he, rfl⟩ := List.mem_map.mp h
  obtain ⟨hrow, hdead⟩ := List.mem_filter.mp he
  intro hpresent
  have heq := hpresent (List.mem_map_of_mem hrow)
  have hnone : s.deadChunkIds e.id = [] := by
    unfold deadChunkIds
    rw [heq, List.filter_eq_nil_iff]
    intro c hc
    rw [(List.mem_filter.mp hc).2]
    exact Bool.false_ne_true
  have hlen := of_decide_eq_true hdead
  rw [hnone] at hlen
  have := le_trans (le_max_left 1 cfg.gcMinDead) hlen
  exact absurd this (by rw [List.length_nil]; decide)

end VectorCypherStore

namespace ChronicleStore

variable {s : ChronicleStore Id T V} {op : ChronicleOp Id}

/-- A planned fact is there. -/
theorem compact_missing [DecidableEq Id] [LinearOrder T] {threshold : T}
    (h : op ∈ s.planFactCompaction threshold) : ¬s.Present op := by
  obtain ⟨f, hf, rfl⟩ := List.mem_map.mp h
  have hmem : f ∈ s.facts := (List.mem_filter.mp (List.mem_mergeSort.mp hf)).1
  exact fun hpresent => hpresent f hmem rfl

/-- The rows of a cluster are rows of the table, none twice, and at least two. -/
theorem clusterEvents_spec [DecidableEq Id] {cosine : V → V → ℚ} {rows members : List (EventRow Id T V)}
    (h : members ∈ clusterEvents cfg cosine rows) : members.Sublist rows ∧ 2 ≤ members.length := by
  obtain ⟨subject, -, hmem⟩ := List.mem_flatMap.mp h
  obtain ⟨hgroup, hlen⟩ := List.mem_filter.mp hmem
  obtain ⟨indices, hindices, rfl⟩ := List.mem_map.mp hgroup
  refine ⟨?_, of_decide_eq_true hlen⟩
  obtain ⟨root, -, rfl⟩ := List.mem_map.mp hindices
  have hbucket := List.Sublist.filterMap (fun i => (rows.filter fun r => decide (r.subject = subject))[i]?)
    (List.filter_sublist (p := fun i => decide ((bucketRoots cfg cosine
      (rows.filter fun r => decide (r.subject = subject))).getD i i = root))
      (l := List.range (rows.filter fun r => decide (r.subject = subject)).length))
  rw [Grouping.filterMap_getElem?_range] at hbucket
  exact hbucket.trans List.filter_sublist

/-- A planned cluster has a live tail. -/
theorem cluster_missing [LinearOrder Id] {newId : Id → Id} {cosine : V → V → ℚ}
    (h : op ∈ s.planEventClustering cfg newId cosine) : ¬s.Present op := by
  obtain ⟨members, hmembers, hop⟩ := List.mem_filterMap.mp h
  obtain ⟨c, -, rfl⟩ := Option.map_eq_some_iff.mp hop
  obtain ⟨hsub, hlen⟩ := clusterEvents_spec hmembers
  have hnodup : (members.map EventRow.id).Nodup :=
    s.events.nodup.sublist ((hsub.trans List.filter_sublist).map _)
  -- two rows with distinct ids are not both the canonical one
  obtain ⟨r, hr, hne⟩ : ∃ r ∈ members, r.id ≠ c.id := by
    match members, hlen, hnodup with
    | a :: b :: rest, _, hnodup =>
        by_cases ha : a.id = c.id
        · refine ⟨b, List.mem_cons_of_mem _ List.mem_cons_self, fun hb => ?_⟩
          rw [List.map_cons, List.nodup_cons] at hnodup
          exact hnodup.1 (List.mem_map.mpr ⟨b, List.mem_cons_self, hb.trans ha.symm⟩)
        · exact ⟨a, List.mem_cons_self, ha⟩
  intro hpresent
  obtain ⟨hrow, hlive⟩ := List.mem_filter.mp (hsub.subset hr)
  have hsome := hpresent r.id (List.mem_filter.mpr ⟨List.mem_map_of_mem hr, decide_eq_true hne⟩) r hrow rfl
  rw [Bool.and_eq_true] at hlive
  rw [Option.isNone_iff_eq_none.mp hlive.2] at hsome
  cases hsome

end ChronicleStore

end Missing

end Khora
