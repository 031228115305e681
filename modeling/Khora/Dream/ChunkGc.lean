import Khora.Lib.Table
import Khora.Storage.SplitEntities

/-!
# The clean-up of chunk references

`vectorcypher/source_chunk_ids_gc.py` plans, for each entity with dead references, the array of the references that
are left, and its handler writes that array. Other clients write between the two.

* `mem_collect` — what either planner reports of an entity.
* `rows_applyGc` — the handler sets the references of one entity to the planned array.
* `gc_exact` — the histories after which the handler removes the dead references and no other.
-/

namespace Khora

namespace ChunkGc

variable {Id : Type} [DecidableEq Id]

/-! ## The tables -/

inductive Dialect where
  | postgresql
  | sqlite

/-- The columns of `entities` that the op reads and writes. -/
structure EntityRow (Id : Type) where
  id : Id
  namespaceId : Id
  sourceChunkIds : List Id
deriving DecidableEq

structure ChunkRow (Id : Type) where
  id : Id
  namespaceId : Id
  documentId : Id
deriving DecidableEq

structure Store (Id : Type) where
  entities : Table Id (EntityRow Id) EntityRow.id
  chunks : Table Id (ChunkRow Id) ChunkRow.id

/-- The namespace has a chunk of the id. -/
def Store.live (s : Store Id) (ns c : Id) : Bool :=
  s.chunks.rows.any fun r => r.id = c && r.namespaceId = ns

/-! ## The planners -/

/-- What the planner needs of an entity with dead references. -/
structure DeadRefs (Id : Type) where
  entityId : Id
  beforeLength : ℕ
  deadUuids : List Id
  afterArray : List Id
deriving DecidableEq

/-- A row of `unrolled`. -/
structure Unrolled (Id : Type) where
  entityId : Id
  beforeLength : ℕ
  cid : Id
  ord : ℕ
  isDead : Bool

/-- The rows of `LEFT JOIN chunks` for a reference, by `c.id IS NULL`. -/
def joinChunks (s : Store Id) (ns cid : Id) : List Bool :=
  match s.chunks.rows.filter fun c => c.id = cid && c.namespaceId = ns with
  | [] => [true]
  | joined => joined.map fun _ => false

/-- `unnest(source_chunk_ids) WITH ORDINALITY`, joined to the chunks of the namespace. -/
def unroll (s : Store Id) (e : EntityRow Id) : List (Unrolled Id) :=
  (e.sourceChunkIds.zipIdx 1).flatMap fun (cid, ord) =>
    (joinChunks s e.namespaceId cid).map fun isDead => ⟨e.id, e.sourceChunkIds.length, cid, ord, isDead⟩

/-- `ARRAY_AGG(cid ORDER BY ord)` -/
def arrayAgg (group : List (Unrolled Id)) : List Id :=
  (group.mergeSort fun a b => a.ord ≤ b.ord).map Unrolled.cid

/-- `_collect_postgres` -/
def collectPostgres (s : Store Id) (ns : Id) : List (DeadRefs Id) :=
  let unrolled := (s.entities.rows.filter fun e => e.namespaceId = ns).flatMap (unroll s)
  (unrolled.map Unrolled.entityId).dedup.filterMap fun i =>
    let group := unrolled.filter fun u => u.entityId = i
    if group.any Unrolled.isDead then
      some
        { entityId := i
          beforeLength := (group.map Unrolled.beforeLength).foldl max 0
          deadUuids := arrayAgg (group.filter Unrolled.isDead)
          afterArray := arrayAgg (group.filter fun u => !u.isDead) }
    else none

/-- `_collect_sqlite` -/
def collectSqlite (s : Store Id) (ns : Id) : List (DeadRefs Id) :=
  let liveChunkIds := (s.chunks.rows.filter fun c => c.namespaceId = ns).map ChunkRow.id
  (s.entities.rows.filter fun e => e.namespaceId = ns).filterMap fun e =>
    let chunkIds := e.sourceChunkIds
    let dead := chunkIds.filter (· ∉ liveChunkIds)
    if chunkIds = [] ∨ dead = [] then none
    else
      some
        { entityId := e.id
          beforeLength := chunkIds.length
          deadUuids := dead
          afterArray := chunkIds.filter (· ∈ liveChunkIds) }

/-- `_collect_dead_refs` -/
def collect (dialect : Dialect) : Store Id → Id → List (DeadRefs Id) :=
  match dialect with
  | .postgresql => collectPostgres
  | .sqlite => collectSqlite

/-- The op, with its `inputs[0]` and `outputs[0]`. -/
structure GcOp (Id : Type) extends DeadRefs Id where
  opId : Id
  afterLength : ℕ
  namespaceId : Id

/-- `plan_vectorcypher_source_chunk_ids_gc`; `opIdOf` is the `uuid4()` drawn for the op of an entity. -/
def plan (dialect : Dialect) (opIdOf : Id → Id) (s : Store Id) (ns : Id) (minDead : ℤ) : List (GcOp Id) :=
  ((collect dialect s ns).filter fun row => max 1 minDead ≤ row.deadUuids.length).map fun row =>
    { row with opId := opIdOf row.entityId, afterLength := row.afterArray.length, namespaceId := ns }

/-! ## The handler -/

/-- `before` of the undo record. -/
inductive UndoBefore (Id : Type) where
  | noop
  | entities (previous : List (Id × List Id))

structure UndoRecord (Id : Type) where
  opId : Id
  before : UndoBefore Id

/-- `_read_current_pg` and `_read_current_sqlite` -/
def readCurrent (s : Store Id) (i : Id) : List Id :=
  ((s.entities.rows.find? fun e => e.id = i).map EntityRow.sourceChunkIds).getD []

/-- `UPDATE entities SET source_chunk_ids = :new_array` -/
def EntityRow.setChunkIds (ids : List Id) (e : EntityRow Id) : EntityRow Id := { e with sourceChunkIds := ids }

/-- `apply_vectorcypher_source_chunk_ids_gc` -/
def applyGc (op : GcOp Id) (s : Store Id) : Store Id × UndoRecord Id :=
  let previous := readCurrent s op.entityId
  if previous = op.afterArray then (s, ⟨op.opId, .noop⟩)
  else
    ({ s with
        entities := s.entities.update (fun e => e.id = op.entityId) (EntityRow.setChunkIds op.afterArray)
          fun _ => rfl },
      ⟨op.opId, .entities [(op.entityId, previous)]⟩)

/-! ## What other clients write -/

inductive Write (Id : Type) where
  | insertChunk (c : ChunkRow Id)
  | insertEntity (e : EntityRow Id)
  /-- an upsert of the entity with the ids of new mentions -/
  | upsertEntity (entity : Id) (chunkIds : List Id)
  | deleteDocument (document ns : Id)
  | deleteEntities (ids : List Id) (ns : Id)

/-- `_SOURCE_CHUNK_IDS_CAP` -/
def sourceChunkIdsCap : ℕ := 250

/-- The references after an upsert: `_accumulate_source_ids_sql`, or those of `Entity.merge_with`. -/
def upsertChunkIds (dialect : Dialect) (old new : List Id) : List Id :=
  match dialect with
  | .postgresql => accumulateSourceIds sourceChunkIdsCap old new
  | .sqlite => new.foldl (fun ids c => if c ∈ ids then ids else ids ++ [c]) old

/-- The rows that stay after a `DELETE`. -/
def keep {R : Type} {key : R → Id} (t : Table Id R key) (p : R → Bool) : Table Id R key :=
  ⟨t.rows.filter p, Table.nodup_filter t.nodup p⟩

/-- One write; an insertion that meets its key changes nothing. -/
def write (dialect : Dialect) (s : Store Id) : Write Id → Store Id
  | .insertChunk c => { s with chunks := (s.chunks.insert c).getD s.chunks }
  | .insertEntity e => { s with entities := (s.entities.insert e).getD s.entities }
  | .upsertEntity i ids =>
      { s with
        entities := s.entities.update (fun e => e.id = i)
          (fun e => e.setChunkIds (upsertChunkIds dialect e.sourceChunkIds ids)) fun _ => rfl }
  | .deleteDocument d ns => { s with chunks := keep s.chunks fun c => !(c.documentId = d && c.namespaceId = ns) }
  | .deleteEntities ids ns => { s with entities := keep s.entities fun e => !(e.id ∈ ids && e.namespaceId = ns) }

/-- The writes of the clients, in the order in which they commit. -/
def writes (dialect : Dialect) (s : Store Id) (ws : List (Write Id)) : Store Id := ws.foldl (write dialect) s

/-! ## What is planned -/

/-- The dead references of an entity, and those that are left. -/
def Store.refs (s : Store Id) (e : EntityRow Id) : DeadRefs Id where
  entityId := e.id
  beforeLength := e.sourceChunkIds.length
  deadUuids := e.sourceChunkIds.filter fun c => !s.live e.namespaceId c
  afterArray := e.sourceChunkIds.filter fun c => s.live e.namespaceId c

/-- By the primary key of `chunks` the join has one row for each reference. -/
theorem joinChunks_eq (s : Store Id) (ns cid : Id) : joinChunks s ns cid = [!s.live ns cid] := by
  have hfilter : (s.chunks.rows.filter fun c => c.id = cid && c.namespaceId = ns) =
      (s.chunks.rows.find? fun c => c.id = cid).toList.filter fun c => c.namespaceId = ns := by
    rw [← s.chunks.filter_key cid, List.filter_filter]
    simp only [Bool.and_comm]
  have hlive : s.live ns cid = (s.chunks.rows.filter fun c => c.id = cid && c.namespaceId = ns).any fun _ => true := by
    rw [List.any_filter]
    simp [Store.live]
  rw [joinChunks, hlive, hfilter]
  cases s.chunks.rows.find? fun c => c.id = cid with
  | none => rfl
  | some c =>
      by_cases hns : c.namespaceId = ns
      · simp [hns]
      · simp [hns]

theorem unroll_eq (s : Store Id) (e : EntityRow Id) :
    unroll s e = (e.sourceChunkIds.zipIdx 1).map fun q =>
      ⟨e.id, e.sourceChunkIds.length, q.1, q.2, !s.live e.namespaceId q.1⟩ := by
  unfold unroll
  rw [List.map_eq_flatMap]
  apply List.flatMap_congr
  intro q _
  simp only [joinChunks_eq, List.map_cons, List.map_nil]

/-- Aggregation in the order of the ordinals gives the references in their order. -/
theorem arrayAgg_unroll (s : Store Id) (e : EntityRow Id) (p : Bool → Bool) :
    arrayAgg ((unroll s e).filter fun u => p u.isDead) =
      e.sourceChunkIds.filter fun c => p (!s.live e.namespaceId c) := by
  have hsorted : (unroll s e).Pairwise fun a b => decide (a.ord ≤ b.ord) = true := by
    rw [unroll_eq, List.pairwise_map, List.pairwise_iff_getElem]
    intro i j hi hj hij
    simp only [List.getElem_zipIdx, decide_eq_true_eq]
    omega
  have hzip : (e.sourceChunkIds.zipIdx 1).map Prod.fst = e.sourceChunkIds := List.zipIdx_map_fst _ _
  calc arrayAgg ((unroll s e).filter fun u => p u.isDead)
      = ((unroll s e).filter fun u => p u.isDead).map Unrolled.cid := by
        rw [arrayAgg, List.mergeSort_of_pairwise (hsorted.sublist List.filter_sublist)]
    _ = ((e.sourceChunkIds.zipIdx 1).filter fun q => p (!s.live e.namespaceId q.1)).map Prod.fst := by
        rw [unroll_eq, List.filter_map, List.map_map]
        rfl
    _ = ((e.sourceChunkIds.zipIdx 1).map Prod.fst).filter fun c => p (!s.live e.namespaceId c) := by
        rw [List.filter_map]
        rfl
    _ = e.sourceChunkIds.filter fun c => p (!s.live e.namespaceId c) := by rw [hzip]

theorem entityId_of_mem_unroll {s : Store Id} {e : EntityRow Id} {u : Unrolled Id} (h : u ∈ unroll s e) :
    u.entityId = e.id ∧ u.beforeLength = e.sourceChunkIds.length := by
  rw [unroll_eq] at h
  obtain ⟨q, -, rfl⟩ := List.mem_map.mp h
  exact ⟨rfl, rfl⟩

/-- The group of an entity is what its own array unrolls to. -/
theorem group_eq (s : Store Id) {ns : Id} {e : EntityRow Id} (he : e ∈ s.entities.rows) (hns : e.namespaceId = ns) :
    (((s.entities.rows.filter fun e => e.namespaceId = ns).flatMap (unroll s)).filter fun u => u.entityId = e.id) =
      unroll s e := by
  have hown : ∀ e', ((unroll s e').filter fun u => u.entityId = e.id) = if e'.id = e.id then unroll s e' else [] := by
    intro e'
    split
    · rename_i h
      rw [List.filter_eq_self]
      intro u hu
      rw [(entityId_of_mem_unroll hu).1]
      exact decide_eq_true h
    · rename_i h
      rw [List.filter_eq_nil_iff]
      intro u hu
      rw [(entityId_of_mem_unroll hu).1]
      simpa using h
  have hflat : ∀ rows : List (EntityRow Id), (rows.flatMap fun e' => if e'.id = e.id then unroll s e' else []) =
      (rows.filter fun e' => e'.id = e.id).flatMap (unroll s) := by
    intro rows
    induction rows with
    | nil => rfl
    | cons e' rows ih =>
        by_cases h : e'.id = e.id
        · simp [h, ih]
        · simp [h, ih]
  rw [List.filter_flatMap]
  simp only [hown]
  rw [hflat, List.filter_comm, s.entities.filter_key_of_mem he]
  simp [hns]

theorem any_isDead_unroll (s : Store Id) (e : EntityRow Id) :
    (unroll s e).any Unrolled.isDead = true ↔ (s.refs e).deadUuids ≠ [] := by
  have hany : (unroll s e).any Unrolled.isDead = e.sourceChunkIds.any fun c => !s.live e.namespaceId c := by
    rw [unroll_eq, List.any_map]
    have hzip : (e.sourceChunkIds.zipIdx 1).map Prod.fst = e.sourceChunkIds := List.zipIdx_map_fst _ _
    conv_rhs => rw [← hzip, List.any_map]
    rfl
  rw [hany, List.any_eq_true]
  simp only [Store.refs, ne_eq, List.filter_eq_nil_iff, not_forall, not_not, exists_prop]

theorem foldl_max_eq {n : ℕ} {l : List ℕ} (hl : ∀ x ∈ l, x = n) (hne : l ≠ []) : l.foldl max 0 = n := by
  have hrest : ∀ k : List ℕ, (∀ x ∈ k, x = n) → k.foldl max n = n := by
    intro k hk
    induction k with
    | nil => rfl
    | cons x k ih =>
        rw [List.foldl_cons, hk x List.mem_cons_self, max_self]
        exact ih fun y hy => hk y (List.mem_cons_of_mem _ hy)
  cases l with
  | nil => exact absurd rfl hne
  | cons x l =>
      rw [List.foldl_cons, hl x List.mem_cons_self, Nat.zero_max]
      exact hrest l fun y hy => hl y (List.mem_cons_of_mem _ hy)

/-- The columns of the query for a group. -/
theorem refs_of_unroll {s : Store Id} {e : EntityRow Id} (h : (unroll s e).any Unrolled.isDead = true) :
    (⟨e.id, ((unroll s e).map Unrolled.beforeLength).foldl max 0, arrayAgg ((unroll s e).filter Unrolled.isDead),
      arrayAgg ((unroll s e).filter fun u => !u.isDead)⟩ : DeadRefs Id) = s.refs e := by
  have hlen : ((unroll s e).map Unrolled.beforeLength).foldl max 0 = e.sourceChunkIds.length := by
    apply foldl_max_eq
    · intro n hn
      obtain ⟨u, hu, rfl⟩ := List.mem_map.mp hn
      exact (entityId_of_mem_unroll hu).2
    · intro hnil
      rw [List.map_eq_nil_iff.mp hnil] at h
      simp at h
  have hdead := arrayAgg_unroll s e fun b => b
  have hlive := arrayAgg_unroll s e fun b => !b
  simp only [Bool.not_not] at hlive
  rw [hlen, hdead, hlive]
  rfl

/-- **What either planner reports**: the entities of the namespace with dead references, each with its references
parted in their order. -/
theorem mem_collect (dialect : Dialect) (s : Store Id) (ns : Id) (row : DeadRefs Id) :
    row ∈ collect dialect s ns ↔
      ∃ e ∈ s.entities.rows, e.namespaceId = ns ∧ s.refs e = row ∧ row.deadUuids ≠ [] := by
  cases dialect with
  | postgresql =>
      simp only [collect, collectPostgres, List.mem_filterMap, List.mem_dedup]
      constructor
      · rintro ⟨i, hi, hrow⟩
        obtain ⟨u, hu, rfl⟩ := List.mem_map.mp hi
        obtain ⟨e, he, hue⟩ := List.mem_flatMap.mp hu
        obtain ⟨he, hns⟩ := List.mem_filter.mp he
        have hns' := of_decide_eq_true hns
        rw [(entityId_of_mem_unroll hue).1, group_eq s he hns'] at hrow
        by_cases hany : (unroll s e).any Unrolled.isDead = true
        · rw [if_pos hany, Option.some.injEq, refs_of_unroll hany] at hrow
          exact ⟨e, he, hns', hrow, by rw [← hrow]; exact (any_isDead_unroll s e).mp hany⟩
        · rw [if_neg hany] at hrow
          cases hrow
      · rintro ⟨e, he, hns, rfl, hdead⟩
        have hany := (any_isDead_unroll s e).mpr hdead
        obtain ⟨u, hu, -⟩ := List.any_eq_true.mp hany
        refine ⟨e.id, List.mem_map.mpr ⟨u, ?_, (entityId_of_mem_unroll hu).1⟩, ?_⟩
        · exact List.mem_flatMap.mpr ⟨e, List.mem_filter.mpr ⟨he, decide_eq_true hns⟩, hu⟩
        · rw [group_eq s he hns, if_pos hany, refs_of_unroll hany]
  | sqlite =>
      -- the ids of the namespace's chunks are those that the query joins
      have hlive : ∀ e : EntityRow Id, e.namespaceId = ns → ∀ c,
          c ∈ ((s.chunks.rows.filter fun c => c.namespaceId = ns).map ChunkRow.id) ↔
            s.live e.namespaceId c = true := by
        intro e hns c
        simp only [List.mem_map, List.mem_filter, decide_eq_true_eq, Store.live, List.any_eq_true,
          Bool.and_eq_true, hns]
        constructor
        · rintro ⟨r, ⟨hr, hrn⟩, hid⟩
          exact ⟨r, hr, hid, hrn⟩
        · rintro ⟨r, hr, hid, hrn⟩
          exact ⟨r, ⟨hr, hrn⟩, hid⟩
      simp only [collect, collectSqlite, List.mem_filterMap, List.mem_filter, decide_eq_true_eq, and_assoc]
      apply exists_congr
      intro e
      apply and_congr_right
      intro _
      apply and_congr_right
      intro hns
      have hdead : (e.sourceChunkIds.filter fun c => decide (c ∉
          (s.chunks.rows.filter fun c => c.namespaceId = ns).map ChunkRow.id)) = (s.refs e).deadUuids := by
        apply List.filter_congr
        intro c _
        simp only [hlive e hns, Bool.not_eq_true]
        cases s.live e.namespaceId c <;> rfl
      have hafter : (e.sourceChunkIds.filter fun c => decide (c ∈
          (s.chunks.rows.filter fun c => c.namespaceId = ns).map ChunkRow.id)) = (s.refs e).afterArray := by
        apply List.filter_congr
        intro c _
        simp only [hlive e hns]
        cases s.live e.namespaceId c <;> rfl
      rw [hdead, hafter]
      by_cases hnone : (s.refs e).deadUuids = []
      · rw [if_pos (Or.inr hnone)]
        constructor
        · intro h
          cases h
        · rintro ⟨rfl, h⟩
          exact absurd hnone h
      · have hids : e.sourceChunkIds ≠ [] := by
          intro h
          exact hnone (by simp [Store.refs, h])
        rw [if_neg (by simp [hids, hnone]), Option.some.injEq]
        constructor
        · rintro rfl
          exact ⟨rfl, hnone⟩
        · exact fun h => h.1

theorem exists_of_mem_plan {dialect : Dialect} {opIdOf : Id → Id} {s : Store Id} {ns : Id} {minDead : ℤ} {op : GcOp Id}
    (hop : op ∈ plan dialect opIdOf s ns minDead) :
    ∃ e ∈ s.entities.rows, e.namespaceId = ns ∧ s.refs e = op.toDeadRefs := by
  obtain ⟨row, hrow, rfl⟩ := List.mem_map.mp hop
  obtain ⟨e, he, hns, heq, -⟩ := (mem_collect dialect s ns row).mp (List.mem_filter.mp hrow).1
  exact ⟨e, he, hns, heq⟩

/-! ## What the handler leaves -/

section Handler

variable {op : GcOp Id} {s : Store Id}

theorem readCurrent_eq {e : EntityRow Id} (he : e ∈ s.entities.rows) : readCurrent s e.id = e.sourceChunkIds := by
  have hfind : (s.entities.rows.find? fun e' => e'.id = e.id).toList = [e] := by
    rw [← s.entities.filter_key, s.entities.filter_key_of_mem he]
  rw [Option.toList_eq_singleton_iff] at hfind
  rw [readCurrent, hfind]
  rfl

/-- **The handler sets one entity's references to the planned array**; where they are that array already, it does
nothing. -/
theorem rows_applyGc (op : GcOp Id) (s : Store Id) :
    (applyGc op s).1.entities.rows =
      s.entities.rows.map fun e => if e.id = op.entityId then e.setChunkIds op.afterArray else e := by
  unfold applyGc
  by_cases hnoop : readCurrent s op.entityId = op.afterArray
  · rw [if_pos hnoop]
    symm
    apply Table.map_eq_self.mpr
    intro e he
    split
    · rename_i hid
      rw [EntityRow.setChunkIds, ← hnoop, ← hid, readCurrent_eq he]
    · rfl
  · rw [if_neg hnoop]
    show (s.entities.rows.map fun e =>
      if decide (e.id = op.entityId) = true then e.setChunkIds op.afterArray else e) = _
    simp only [decide_eq_true_eq]

/-- The handler removes the dead references of the entity, keeps the others in their order, and loses no reference
to a live chunk. -/
structure GcRight (op : GcOp Id) (s : Store Id) : Prop where
  drops_dead : ∀ e ∈ s.entities.rows, e.id = op.entityId →
    ∀ e' ∈ (applyGc op s).1.entities.rows, e'.id = op.entityId →
      e'.sourceChunkIds = e.sourceChunkIds.filter (· ∉ op.deadUuids)
  keeps_live : ∀ e ∈ s.entities.rows, e.id = op.entityId →
    ∀ e' ∈ (applyGc op s).1.entities.rows, e'.id = op.entityId →
      ∀ c ∈ e.sourceChunkIds, s.live e.namespaceId c = true → c ∈ e'.sourceChunkIds

/-- After the handler the entity has the planned array. -/
theorem sourceChunkIds_of_applyGc {e' : EntityRow Id} (he' : e' ∈ (applyGc op s).1.entities.rows)
    (hid : e'.id = op.entityId) : e'.sourceChunkIds = op.afterArray := by
  rw [rows_applyGc] at he'
  obtain ⟨e, -, rfl⟩ := List.mem_map.mp he'
  by_cases h : e.id = op.entityId
  · rw [if_pos h]
    rfl
  · rw [if_neg h] at hid
    exact absurd hid h

theorem exists_applyGc {e : EntityRow Id} (he : e ∈ s.entities.rows) (hid : e.id = op.entityId) :
    ∃ e' ∈ (applyGc op s).1.entities.rows, e'.id = op.entityId := by
  refine ⟨e.setChunkIds op.afterArray, ?_, hid⟩
  rw [rows_applyGc]
  exact List.mem_map.mpr ⟨e, he, if_pos hid⟩

theorem gcRight_iff : GcRight op s ↔ ∀ e ∈ s.entities.rows, e.id = op.entityId →
    e.sourceChunkIds.filter (· ∉ op.deadUuids) = op.afterArray ∧
      ∀ c ∈ e.sourceChunkIds, c ∈ op.deadUuids → s.live e.namespaceId c = false := by
  constructor
  · intro h e he hid
    obtain ⟨e', he', hid'⟩ := exists_applyGc he hid
    have hdrop := h.drops_dead e he hid e' he' hid'
    have hafter := sourceChunkIds_of_applyGc he' hid'
    refine ⟨by rw [← hdrop, hafter], ?_⟩
    intro c hc hdead
    by_contra hlive
    have hmem := h.keeps_live e he hid e' he' hid' c hc (by simpa using hlive)
    rw [hdrop] at hmem
    simpa [hdead] using List.mem_filter.mp hmem
  · intro h
    constructor
    · intro e he hid e' he' hid'
      rw [sourceChunkIds_of_applyGc he' hid', (h e he hid).1]
    · intro e he hid e' he' hid' c hc hlive
      rw [sourceChunkIds_of_applyGc he' hid', ← (h e he hid).1, List.mem_filter]
      refine ⟨hc, decide_eq_true ?_⟩
      intro hdead
      rw [(h e he hid).2 c hc hdead] at hlive
      cases hlive

end Handler

/-! ## The histories after which the handler is right -/

/-- The references of the entity that the op does not list as dead are at the later time what they were at the
earlier, in the same order. -/
def Untouched (op : GcOp Id) (s later : Store Id) : Prop :=
  ∀ e ∈ s.entities.rows, e.id = op.entityId → ∀ e' ∈ later.entities.rows, e'.id = op.entityId →
    e'.sourceChunkIds.filter (· ∉ op.deadUuids) = e.sourceChunkIds.filter (· ∉ op.deadUuids)

/-- No reference that the op lists as dead has a chunk at the later time. -/
def NoneRevived (op : GcOp Id) (later : Store Id) : Prop :=
  ∀ e ∈ later.entities.rows, e.id = op.entityId →
    ∀ c ∈ e.sourceChunkIds, c ∈ op.deadUuids → later.live e.namespaceId c = false

/-- The planners of the two dialects report the same. -/
def PlannersAgree (s : Store Id) (ns : Id) : Prop :=
  ∀ row, row ∈ collect .postgresql s ns ↔ row ∈ collect .sqlite s ns

theorem plannersAgree (s : Store Id) (ns : Id) : PlannersAgree s ns := by
  intro row
  rw [mem_collect, mem_collect]

section History

variable {dialect : Dialect} {opIdOf : Id → Id} {s : Store Id} {ns : Id} {minDead : ℤ} {op : GcOp Id}

/-- At plan time the references not listed as dead are the planned array. -/
theorem filter_of_mem_plan (hop : op ∈ plan dialect opIdOf s ns minDead) :
    ∃ e ∈ s.entities.rows, e.id = op.entityId ∧ e.sourceChunkIds.filter (· ∉ op.deadUuids) = op.afterArray := by
  obtain ⟨e, he, -, hrefs⟩ := exists_of_mem_plan hop
  refine ⟨e, he, congrArg DeadRefs.entityId hrefs, ?_⟩
  rw [← show (s.refs e).deadUuids = op.deadUuids from congrArg DeadRefs.deadUuids hrefs,
    ← show (s.refs e).afterArray = op.afterArray from congrArg DeadRefs.afterArray hrefs]
  apply List.filter_congr
  intro c hc
  cases hlive : s.live e.namespaceId c <;> simp [Store.refs, hc, hlive]

/-- **The histories after which the clean-up drops only dead references**: of the entity's other references none was
added, removed or moved since the plan, and none of the listed ones has a chunk again. The planners always agree. -/
theorem gc_exact (hop : op ∈ plan dialect opIdOf s ns minDead) (ws : List (Write Id)) :
    (GcRight op (writes dialect s ws) ∧ PlannersAgree s ns) ↔
      Untouched op s (writes dialect s ws) ∧ NoneRevived op (writes dialect s ws) := by
  obtain ⟨e, he, hid, hfilter⟩ := filter_of_mem_plan hop
  rw [gcRight_iff]
  constructor
  · rintro ⟨h, -⟩
    constructor
    · intro e₀ he₀ hid₀ e' he' hid'
      rw [List.inj_on_of_nodup_map s.entities.nodup he₀ he (hid₀.trans hid.symm), hfilter]
      exact (h e' he' hid').1
    · intro e' he' hid'
      exact (h e' he' hid').2
  · rintro ⟨huntouched, hrevived⟩
    refine ⟨?_, plannersAgree s ns⟩
    intro e' he' hid'
    refine ⟨?_, hrevived e' he' hid'⟩
    rw [huntouched e he hid e' he' hid', hfilter]

end History

theorem live_iff {s : Store Id} {ns c : Id} :
    s.live ns c = true ↔ ∃ r ∈ s.chunks.rows, r.id = c ∧ r.namespaceId = ns := by
  simp [Store.live]

/-- Entity `1` with the references `10` and `20`, of which only `10` has a chunk. -/
def halfDead : Store ℕ where
  entities := ⟨[⟨1, 0, [10, 20]⟩], by simp⟩
  chunks := ⟨[⟨10, 0, 5⟩], by simp⟩

def halfDeadOp : GcOp ℕ := ⟨⟨1, 2, [20], [10]⟩, 7, 1, 0⟩

theorem halfDeadOp_mem (dialect : Dialect) : halfDeadOp ∈ plan dialect (fun _ => 7) halfDead 0 1 := by
  have hrow : (⟨1, 2, [20], [10]⟩ : DeadRefs ℕ) ∈ collect dialect halfDead 0 :=
    (mem_collect dialect halfDead 0 _).mpr ⟨⟨1, 0, [10, 20]⟩, by decide, rfl, by decide, by decide⟩
  exact List.mem_map.mpr ⟨_, List.mem_filter.mpr ⟨hrow, by decide⟩, rfl⟩

/-- A new document, with a chunk of another entity, comes between. -/
theorem gc_exact_otherDocument : GcRight halfDeadOp
    (writes .postgresql halfDead [.insertChunk ⟨30, 0, 6⟩, .insertEntity ⟨2, 0, [30]⟩]) :=
  ((gc_exact (halfDeadOp_mem .postgresql) _).mpr
    ⟨by
      intro e he hid e' he' hid'
      obtain rfl : e = ⟨1, 0, [10, 20]⟩ := by simpa [halfDead] using he
      have he'' : e' = ⟨1, 0, [10, 20]⟩ ∨ e' = ⟨2, 0, [30]⟩ := by
        simpa [writes, write, halfDead, Table.insert] using he'
      rcases he'' with rfl | rfl
      · rfl
      · exact absurd hid' (by decide),
    by
      intro e he hid c hc hdead
      obtain rfl : c = 20 := by simpa [halfDeadOp] using hdead
      by_contra hlive
      obtain ⟨r, hr, hid', -⟩ := live_iff.mp (by simpa using hlive)
      have hr' : r = ⟨10, 0, 5⟩ ∨ r = ⟨30, 0, 6⟩ := by
        simpa [writes, write, halfDead, Table.insert] using hr
      rcases hr' with rfl | rfl <;> exact absurd hid' (by decide)⟩).1

/-- A mention of the entity comes between: the reference to its chunk is lost. -/
theorem newMention_lost :
    halfDeadOp ∈ plan .postgresql (fun _ => 7) halfDead 0 1 ∧
    halfDeadOp ∈ plan .sqlite (fun _ => 7) halfDead 0 1 ∧
    ¬ GcRight halfDeadOp (writes .postgresql halfDead [.insertChunk ⟨30, 0, 6⟩, .upsertEntity 1 [30]]) ∧
    ¬ GcRight halfDeadOp (writes .sqlite halfDead [.insertChunk ⟨30, 0, 6⟩, .upsertEntity 1 [30]]) := by
  refine ⟨halfDeadOp_mem _, halfDeadOp_mem _, ?_, ?_⟩
  · intro h
    have hrow := gcRight_iff.mp h ⟨1, 0, [10, 20, 30]⟩ (by decide) rfl
    exact absurd hrow.1 (by decide)
  · intro h
    have hrow := gcRight_iff.mp h ⟨1, 0, [10, 20, 30]⟩ (by decide) rfl
    exact absurd hrow.1 (by decide)

end ChunkGc

end Khora
