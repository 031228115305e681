import Khora.Storage.ReplaceGraph
import Mathlib.Data.List.Dedup

/-!
# Entities in two stores

On a split stack an entity is a row of pgvector and a node of Neo4j, both under the key
`(namespace_id, name, entity_type)`.  `StorageCoordinator.upsert_entities_batch` writes the rows
first; the vector store sets the id of each entity it is given to the id of the row, and the graph
is merged with those ids.

The two conflict branches differ: the row takes the validity window of the mention and its sources
without repeats, the node keeps its window and takes the tail of the concatenated sources.

* `idAt_upsertRows` — a row keeps its id, and a new one has that of its first mention.
* `idAt_upsertEntitiesBatch` — a node keeps its id, and a new one has that of its row.
-/

namespace Khora

/-- An entity as extracted, a row or a node. -/
structure EntityRecord (I K A D : Type) where
  id : I
  key : K
  attributes : A
  sources : List D
  validUntil : Option ℕ
deriving DecidableEq, Repr

/-- `_SOURCE_DOCUMENT_IDS_CAP` and `entity_source_document_ids_max` -/
def sourceDocumentIdsCap : ℕ := 100

structure SplitEntities (I K A D : Type) where
  rows : List (EntityRecord I K A D)
  nodes : List (EntityRecord I K A D)
deriving DecidableEq, Repr

/-- The id under a key. -/
def idAt {I K A D : Type} [DecidableEq K] (l : List (EntityRecord I K A D)) (k : K) : Option I :=
  (KeyedMerge.get EntityRecord.key l k).map EntityRecord.id

section Upsert

variable {I K A D : Type} [DecidableEq D] [DecidableEq A] [EmptyCollection A]

/-- `_accumulate_source_ids_sql`: each id at its last place, and the last of them. -/
def accumulateSourceIds (cap : ℕ) (old new : List D) : List D :=
  (old ++ new).dedup.drop ((old ++ new).dedup.length - cap)

/-- Empty attributes do not replace any. -/
def keepAttributes (old new : A) : A := if new = ∅ then old else new

/-- `ON CONFLICT DO UPDATE` -/
def onConflict (e r : EntityRecord I K A D) : EntityRecord I K A D :=
  { r with
    attributes := keepAttributes r.attributes e.attributes
    sources := accumulateSourceIds sourceDocumentIdsCap r.sources e.sources
    validUntil := e.validUntil }

/-- `ON MATCH SET` -/
def onMatch (e n : EntityRecord I K A D) : EntityRecord I K A D :=
  { n with
    attributes := keepAttributes n.attributes e.attributes
    sources := tailMerge sourceDocumentIdsCap n.sources e.sources }

variable [DecidableEq K]

/-- `PgVectorBackend.upsert_entities_batch` -/
def upsertRows (rows : List (EntityRecord I K A D)) (entities : List (EntityRecord I K A D)) :
    List (EntityRecord I K A D) :=
  KeyedMerge.mergeAll EntityRecord.key EntityRecord.key onConflict id rows entities

/-- The ids of the entities after the vector store has synced them to its rows. -/
def syncIds (rows : List (EntityRecord I K A D)) (entities : List (EntityRecord I K A D)) :
    List (EntityRecord I K A D) :=
  entities.map fun e => { e with id := (idAt rows e.key).getD e.id }

/-- `Neo4jBackend.upsert_entities_batch`, its `MERGE` -/
def upsertNodes (nodes : List (EntityRecord I K A D)) (entities : List (EntityRecord I K A D)) :
    List (EntityRecord I K A D) :=
  KeyedMerge.mergeAll EntityRecord.key EntityRecord.key onMatch id nodes entities

/-- `StorageCoordinator.upsert_entities_batch` -/
def SplitEntities.upsertEntitiesBatch (s : SplitEntities I K A D) (entities : List (EntityRecord I K A D)) :
    SplitEntities I K A D :=
  let rows := upsertRows s.rows entities
  ⟨rows, upsertNodes s.nodes (syncIds rows entities)⟩

/-! ## What an upsert leaves under a key -/

theorem nodup_upsertRows {rows : List (EntityRecord I K A D)} (h : (rows.map EntityRecord.key).Nodup)
    (entities : List (EntityRecord I K A D)) : ((upsertRows rows entities).map EntityRecord.key).Nodup := by
  apply KeyedMerge.nodup_mergeAll
  · exact fun e r => rfl
  · exact fun e => rfl
  · exact h

omit [DecidableEq D] in
theorem nodup_upsertNodes {nodes : List (EntityRecord I K A D)} (h : (nodes.map EntityRecord.key).Nodup)
    (entities : List (EntityRecord I K A D)) : ((upsertNodes nodes entities).map EntityRecord.key).Nodup := by
  apply KeyedMerge.nodup_mergeAll
  · exact fun e n => rfl
  · exact fun e => rfl
  · exact h

/-- A row keeps its id; a new one has that of its first mention. -/
theorem idAt_upsertRows (rows entities : List (EntityRecord I K A D)) (k : K) :
    idAt (upsertRows rows entities) k =
      (idAt rows k).or ((entities.find? fun e => decide (e.key = k)).map EntityRecord.id) := by
  apply KeyedMerge.map_get_mergeAll
  · exact fun e r => rfl
  · exact fun e => rfl
  · exact fun e r => rfl

omit [DecidableEq D] in
theorem idAt_upsertNodes (nodes entities : List (EntityRecord I K A D)) (k : K) :
    idAt (upsertNodes nodes entities) k =
      (idAt nodes k).or ((entities.find? fun e => decide (e.key = k)).map EntityRecord.id) := by
  apply KeyedMerge.map_get_mergeAll
  · exact fun e n => rfl
  · exact fun e => rfl
  · exact fun e n => rfl

omit [DecidableEq D] [DecidableEq A] [EmptyCollection A] in
theorem find?_isSome_iff {entities : List (EntityRecord I K A D)} {k : K} :
    (entities.find? fun e => decide (e.key = k)).isSome = true ↔ k ∈ entities.map EntityRecord.key := by
  rw [List.find?_isSome, List.mem_map]
  exact exists_congr fun e => and_congr_right fun _ => decide_eq_true_iff

omit [DecidableEq D] [DecidableEq A] [EmptyCollection A] in
/-- The id a mention gives a key that has none. -/
theorem exists_of_find? {entities : List (EntityRecord I K A D)} {k : K} {i : I}
    (h : (entities.find? fun e => decide (e.key = k)).map EntityRecord.id = some i) :
    ∃ e ∈ entities, e.key = k ∧ e.id = i := by
  obtain ⟨e, he, hid⟩ := Option.map_eq_some_iff.mp h
  have hkey := List.find?_some he
  exact ⟨e, List.mem_of_find?_eq_some he, of_decide_eq_true hkey, hid⟩

/-- A mentioned key has a row afterwards. -/
theorem idAt_upsertRows_isSome {rows entities : List (EntityRecord I K A D)} {k : K}
    (h : k ∈ entities.map EntityRecord.key) : (idAt (upsertRows rows entities) k).isSome = true := by
  rw [idAt_upsertRows, Option.isSome_or, Option.isSome_map, find?_isSome_iff.mpr h, Bool.or_true]

omit [DecidableEq D] [DecidableEq A] [EmptyCollection A] in
/-- A synced entity has the id of its row. -/
theorem find?_syncIds {rows entities : List (EntityRecord I K A D)} {k : K} (h : (idAt rows k).isSome = true) :
    ((syncIds rows entities).find? fun e => decide (e.key = k)).map EntityRecord.id =
      if k ∈ entities.map EntityRecord.key then idAt rows k else none := by
  unfold syncIds
  rw [List.find?_map, Option.map_map]
  by_cases hk : k ∈ entities.map EntityRecord.key
  · obtain ⟨e, he⟩ := Option.isSome_iff_exists.mp (find?_isSome_iff.mpr hk)
    obtain ⟨i, hi⟩ := Option.isSome_iff_exists.mp h
    have hfound := List.find?_some he
    have hkey : e.key = k := of_decide_eq_true hfound
    rw [if_pos hk, hi]
    refine (congrArg _ he).trans ?_
    show some ((idAt rows e.key).getD e.id) = some i
    rw [hkey, hi]
    rfl
  · have hnone : (entities.find? fun e => decide (e.key = k)) = none := by
      rw [← Option.not_isSome_iff_eq_none, find?_isSome_iff]
      exact hk
    rw [if_neg hk]
    exact congrArg _ hnone

/-- Every entity that the graph gets has the id of its row. -/
theorem idAt_of_mem_syncIds {rows entities : List (EntityRecord I K A D)} {e : EntityRecord I K A D}
    (h : e ∈ syncIds (upsertRows rows entities) entities) : idAt (upsertRows rows entities) e.key = some e.id := by
  obtain ⟨e₀, he₀, rfl⟩ := List.mem_map.mp h
  have hrow : (idAt (upsertRows rows entities) e₀.key).isSome = true :=
    idAt_upsertRows_isSome (List.mem_map_of_mem he₀)
  obtain ⟨i, hi⟩ := Option.isSome_iff_exists.mp hrow
  show idAt (upsertRows rows entities) e₀.key = some ((idAt (upsertRows rows entities) e₀.key).getD e₀.id)
  rw [hi]
  rfl

/-- **A node keeps its id; a new one has that of its row.** -/
theorem idAt_upsertEntitiesBatch (s : SplitEntities I K A D) (entities : List (EntityRecord I K A D)) (k : K) :
    idAt (s.upsertEntitiesBatch entities).nodes k =
      (idAt s.nodes k).or
        (if k ∈ entities.map EntityRecord.key then idAt (upsertRows s.rows entities) k else none) := by
  show idAt (upsertNodes s.nodes (syncIds (upsertRows s.rows entities) entities)) k = _
  rw [idAt_upsertNodes]
  congr 1
  by_cases hk : k ∈ entities.map EntityRecord.key
  · exact find?_syncIds (idAt_upsertRows_isSome hk)
  · rw [if_neg hk, Option.map_eq_none_iff, ← Option.not_isSome_iff_eq_none, find?_isSome_iff]
    unfold syncIds
    rw [List.map_map]
    exact hk

/-- Stores that have one id for a key have one for every key that is mentioned. -/
theorem idAt_upsert_same {s : SplitEntities I K A D} {entities : List (EntityRecord I K A D)} {k : K}
    (h : idAt s.rows k = idAt s.nodes k) :
    idAt (s.upsertEntitiesBatch entities).rows k = idAt (s.upsertEntitiesBatch entities).nodes k := by
  rw [idAt_upsertEntitiesBatch, ← h]
  show idAt (upsertRows s.rows entities) k = _
  by_cases hk : k ∈ entities.map EntityRecord.key
  · rw [if_pos hk, idAt_upsertRows]
    cases idAt s.rows k with
    | none => rfl
    | some i => rfl
  · have hnone : (entities.find? fun e => decide (e.key = k)) = none := by
      rw [← Option.not_isSome_iff_eq_none, find?_isSome_iff]
      exact hk
    rw [if_neg hk, idAt_upsertRows, hnone]
    rfl

end Upsert

end Khora
