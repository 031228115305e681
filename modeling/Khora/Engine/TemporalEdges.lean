import Khora.Lib.Runs
import Mathlib.Data.List.Induction
import Mathlib.Data.List.Nodup
import Mathlib.Data.List.Perm.Subperm
import Mathlib.Data.List.Sort
import Mathlib.Logic.Relation

/-!
# Temporal edges of the skeleton engine

Every observation is an edge of its own, linked to the node of its day, which counts its edges.  An
edge of an exclusive type invalidates the older valid edges of the same two entities, of which at most
one hundred are read, before its own row exists.

* `conflictsAndCounts` — edges that are created one by one leave the latest as the only valid one
  exactly if every one has a row and a day, it comes last, at most one hundred are valid when it comes,
  and, where foreign keys are enforced, no other edge came before; the counts are right exactly until a
  stored edge is deleted.
* `latestAndOlder` — an older fact that is learned later.
-/

namespace Khora

namespace TemporalEdges

/-- An aware datetime: the instant, from the start of the year 1, and the offset of its zone, in
microseconds. -/
structure Occurrence where
  instant : ℤ
  utcoffset : ℤ
deriving DecidableEq, Repr

def dayMicros : ℤ := 86400000000

/-- The clock time of the datetime in its zone. -/
def Occurrence.clock (dt : Occurrence) : ℤ := dt.instant + dt.utcoffset

/-- The first day of the year 9999, and its last one, with which the calendar ends. -/
def year9999 : ℤ := 3651694 * dayMicros

def lastDay : ℤ := 3652058 * dayMicros

/-- `dt.replace(hour=0, minute=0, second=0, microsecond=0)` -/
def dayStart (dt : Occurrence) : ℤ :=
  dt.clock / dayMicros * dayMicros - dt.utcoffset

/-- `TemporalEdge`, the fields that the storage reads, and whether the driver and the columns take every
value of its row. -/
structure TemporalEdge (Id : Type) where
  id : Id
  namespaceId : Id
  sourceEntityId : Id
  targetEntityId : Id
  relationshipType : String
  occurredAt : Occurrence
  isValid : Bool
  storable : Bool
deriving DecidableEq, Repr

/-- `TemporalEdgeModel` -/
structure EdgeRow (Id : Type) extends TemporalEdge Id where
  invalidatedById : Option Id
  invalidationReason : Option String
deriving DecidableEq, Repr

/-- The node of a day of a namespace, and `edge_count`. -/
structure DayNode (Id : Type) where
  namespaceId : Id
  startTime : ℤ
  edgeCount : ℕ
deriving DecidableEq, Repr

def DayNode.key {Id : Type} (node : DayNode Id) : Id × ℤ := (node.namespaceId, node.startTime)

/-- `time_edge_links`: the keys of day nodes, and the ids of edges. -/
structure EdgeStore (Id : Type) where
  edges : List (EdgeRow Id)
  dayNodes : List (DayNode Id)
  links : List ((Id × ℤ) × Id)
deriving DecidableEq, Repr

def EdgeStore.empty {Id : Type} : EdgeStore Id := ⟨[], [], []⟩

def EdgeStore.ids {Id : Type} (store : EdgeStore Id) : List Id := store.edges.map fun row => row.id

/-- `str.upper`, whether the database enforces the foreign keys, and the instants that the driver takes. -/
structure Settings where
  upper : String → String
  upper_empty : upper "" = ""
  foreignKeys : Bool
  binds : ℤ → Bool

def exclusiveTypes : List String :=
  ["WORKS_FOR", "REPORTS_TO", "MANAGES", "MARRIED_TO", "CEO_OF", "PRESIDENT_OF", "LOCATED_AT", "HEADQUARTERED_IN"]

/-- The default limit of `get_edges_by_entity_pair`. -/
def pairLimit : ℕ := 100

section Model

variable {Id : Type} [DecidableEq Id] (settings : Settings)

/-- The valid edges of `get_edges_by_entity_pair`, in chronological order. -/
def getEdgesByEntityPair (store : EdgeStore Id) (source target namespaceId : Id) (relationshipType : String) :
    List (EdgeRow Id) :=
  ((store.edges.filter fun row => decide (row.namespaceId = namespaceId ∧ row.sourceEntityId = source ∧
      row.targetEntityId = target ∧ (relationshipType ≠ "" → row.relationshipType = relationshipType)) &&
      row.isValid).insertionSort
    fun a b => a.occurredAt.instant ≤ b.occurredAt.instant).take pairLimit

/-- `invalidate_edge`; `none` for an integrity error. -/
def invalidateEdge (store : EdgeStore Id) (edgeId : Id) (invalidatedBy : Option Id) (reason : Option String) :
    Option (EdgeStore Id × Bool) :=
  if edgeId ∉ store.ids then some (store, false)
  else if settings.foreignKeys && invalidatedBy.any (fun i => decide (i ∉ store.ids)) then none
  else
    some ({ store with edges := store.edges.map fun row =>
      if row.id = edgeId then
        { row with isValid := false, invalidatedById := invalidatedBy, invalidationReason := reason }
      else row }, true)

/-- `_handle_conflicts` -/
def handleConflicts (store : EdgeStore Id) (newEdge : TemporalEdge Id) : Option (EdgeStore Id) :=
  let existing := getEdgesByEntityPair store newEdge.sourceEntityId newEdge.targetEntityId newEdge.namespaceId
    newEdge.relationshipType
  if settings.upper newEdge.relationshipType ∈ exclusiveTypes then
    existing.foldlM (fun store oldEdge =>
      if oldEdge.occurredAt.instant < newEdge.occurredAt.instant then
        (invalidateEdge settings store oldEdge.id (some newEdge.id)
          (some ("Superseded by newer " ++ newEdge.relationshipType ++ " edge"))).map Prod.fst
      else some store) store
  else some store

/-- `get_or_create_day_node`; `none` where the calendar or the driver raises. -/
def getOrCreateDayNode (store : EdgeStore Id) (namespaceId : Id) (dt : Occurrence) : Option (EdgeStore Id) :=
  -- `day_start + timedelta(days=1)`
  if lastDay ≤ dt.clock || !settings.binds (dayStart dt) then none
  else if store.dayNodes.any fun node => decide (node.key = (namespaceId, dayStart dt)) then some store
  -- `datetime(dt.year + 1, 1, 1)` of the year node
  else if year9999 ≤ dt.clock then none
  else some { store with dayNodes := store.dayNodes ++ [⟨namespaceId, dayStart dt, 0⟩] }

/-- `increment_edge_count` -/
def incrementEdgeCount (store : EdgeStore Id) (key : Id × ℤ) : EdgeStore Id :=
  { store with dayNodes := store.dayNodes.map fun node =>
      if node.key = key then { node with edgeCount := node.edgeCount + 1 } else node }

/-- `_link_to_time_node` -/
def linkToTimeNode (store : EdgeStore Id) (namespaceId edgeId : Id) (occurredAt : Occurrence) :
    Option (EdgeStore Id) :=
  let key := (namespaceId, dayStart occurredAt)
  (getOrCreateDayNode settings store namespaceId occurredAt).bind fun store =>
    if (key, edgeId) ∈ store.links then none
    else some (incrementEdgeCount { store with links := (key, edgeId) :: store.links } key)

/-- `create_edge` -/
def createEdge (store : EdgeStore Id) (edge : TemporalEdge Id) (checkConflicts : Bool) : Option (EdgeStore Id) :=
  (if checkConflicts then handleConflicts settings store edge else some store).bind fun store =>
    if edge.id ∈ store.ids || !edge.storable then none
    else
      linkToTimeNode settings { store with edges := store.edges ++ [⟨edge, none, none⟩] } edge.namespaceId edge.id
        edge.occurredAt

/-- The rows deleted, with what the foreign keys do: links go, and what refers to them refers to nothing. -/
def deleteRows (store : EdgeStore Id) (row : EdgeRow Id → Bool) : EdgeStore Id :=
  let gone := (store.edges.filter row).map fun r => r.id
  let kept := store.edges.filter fun r => !row r
  if settings.foreignKeys then
    { store with
      edges := kept.map fun r =>
        if r.invalidatedById.any (fun i => decide (i ∈ gone)) then { r with invalidatedById := none } else r
      links := store.links.filter fun l => decide (l.2 ∉ gone) }
  else { store with edges := kept }

/-- `delete_edge` -/
def deleteEdge (store : EdgeStore Id) (edgeId : Id) : EdgeStore Id × Bool :=
  (deleteRows settings store fun row => decide (row.id = edgeId), decide (edgeId ∈ store.ids))

/-- The rows of `delete_edges_by_entity`. -/
def touches (entityId namespaceId : Id) (row : EdgeRow Id) : Bool :=
  decide (row.namespaceId = namespaceId ∧ (row.sourceEntityId = entityId ∨ row.targetEntityId = entityId))

/-- `delete_edges_by_entity` -/
def deleteEdgesByEntity (store : EdgeStore Id) (entityId namespaceId : Id) : EdgeStore Id × ℕ :=
  (deleteRows settings store (touches entityId namespaceId), store.edges.countP (touches entityId namespaceId))

/-- A call. -/
inductive EdgeOp (Id : Type) where
  | create (edge : TemporalEdge Id) (checkConflicts : Bool)
  | invalidate (edgeId : Id) (invalidatedBy : Option Id) (reason : Option String)
  | delete (edgeId : Id)
  | deleteByEntity (entityId namespaceId : Id)
deriving DecidableEq, Repr

/-- Every call is a transaction: what fails leaves the store as it was. -/
def next (store : EdgeStore Id) : EdgeOp Id → EdgeStore Id
  | .create edge checkConflicts => (createEdge settings store edge checkConflicts).getD store
  | .invalidate edgeId invalidatedBy reason =>
      ((invalidateEdge settings store edgeId invalidatedBy reason).map Prod.fst).getD store
  | .delete edgeId => (deleteEdge settings store edgeId).1
  | .deleteByEntity entityId namespaceId => (deleteEdgesByEntity settings store entityId namespaceId).1

/-- The edges, created one by one with `check_conflicts`. -/
def createAll (store : EdgeStore Id) (arrivals : List (TemporalEdge Id)) : EdgeStore Id :=
  Runs.run (next settings) store (arrivals.map fun edge => .create edge true)

/-! ## What should hold -/

/-- The row of this id refers to that one. -/
def RefersTo (rows : List (EdgeRow Id)) (a b : Id) : Prop := ∃ row ∈ rows, row.id = a ∧ row.invalidatedById = some b

def IsValid (rows : List (EdgeRow Id)) (a : Id) : Prop := ∃ row ∈ rows, row.id = a ∧ row.isValid = true

/-- The latest edge alone is valid, and from every other one the references lead to it. -/
def LatestValid (rows : List (EdgeRow Id)) (arrivals : List (TemporalEdge Id)) : Prop :=
  ∃ latest ∈ arrivals, (∀ e ∈ arrivals, e.occurredAt.instant ≤ latest.occurredAt.instant) ∧
    (∀ e ∈ arrivals, IsValid rows e.id ↔ e = latest) ∧
    ∀ e ∈ arrivals, Relation.ReflTransGen (RefersTo rows) e.id latest.id

/-- The edges of the store that are linked to the node. -/
def linkedEdges (store : EdgeStore Id) (node : DayNode Id) : ℕ :=
  store.edges.countP fun row => decide ((node.key, row.id) ∈ store.links)

/-- The row of a new edge is taken, and its day is of the calendar: before the year 9999, or at the start of
a day before it in another zone. -/
def Datable (store : EdgeStore Id) (edge : TemporalEdge Id) : Prop :=
  edge.storable = true ∧ edge.occurredAt.clock < lastDay ∧ settings.binds (dayStart edge.occurredAt) = true ∧
    (edge.occurredAt.clock < year9999 ∨
      ∃ node ∈ store.dayNodes, node.key = (edge.namespaceId, dayStart edge.occurredAt))

/-- A created edge has a row and a day. -/
def Dated (store : EdgeStore Id) : EdgeOp Id → Prop
  | .create edge _ => Datable settings store edge
  | _ => True

def CountsExact (store : EdgeStore Id) : Prop := ∀ node ∈ store.dayNodes, node.edgeCount = linkedEdges store node

/-- The call deletes no stored edge. -/
def DeletesNone (store : EdgeStore Id) : EdgeOp Id → Prop
  | .delete edgeId => ∀ row ∈ store.edges, row.id ≠ edgeId
  | .deleteByEntity entityId namespaceId => ∀ row ∈ store.edges, touches entityId namespaceId row = false
  | _ => True

/-! ## Conflicts -/

/-- The row, superseded by the new edge. -/
def supersede (newEdge : TemporalEdge Id) (row : EdgeRow Id) : EdgeRow Id :=
  { row with
    isValid := false
    invalidatedById := some newEdge.id
    invalidationReason := some ("Superseded by newer " ++ newEdge.relationshipType ++ " edge") }

def supersedeIds (newEdge : TemporalEdge Id) (ids : List Id) (rows : List (EdgeRow Id)) : List (EdgeRow Id) :=
  rows.map fun row => if row.id ∈ ids then supersede newEdge row else row

theorem ids_supersedeIds (newEdge : TemporalEdge Id) (ids : List Id) (rows : List (EdgeRow Id)) :
    ((supersedeIds newEdge ids rows).map fun row => row.id) = rows.map fun row => row.id := by
  rw [supersedeIds, List.map_map]
  refine List.map_congr_left fun row _ => ?_
  rw [Function.comp_apply]
  split
  · rfl
  · rfl

theorem supersedeIds_nil (newEdge : TemporalEdge Id) (rows : List (EdgeRow Id)) :
    supersedeIds newEdge [] rows = rows := by
  simp [supersedeIds]

theorem supersedeIds_cons (newEdge : TemporalEdge Id) (i : Id) (ids : List Id) (rows : List (EdgeRow Id)) :
    supersedeIds newEdge ids (supersedeIds newEdge [i] rows) = supersedeIds newEdge (i :: ids) rows := by
  rw [supersedeIds, supersedeIds, List.map_map]
  refine List.map_congr_left fun row _ => ?_
  rw [Function.comp_apply]
  by_cases hi : row.id = i
  · rw [if_pos (List.mem_singleton.mpr hi), if_pos (List.mem_cons.mpr (.inl hi))]
    split
    · rfl
    · rfl
  · rw [if_neg (mt List.mem_singleton.mp hi)]
    simp only [List.mem_cons, hi, false_or]

/-- The older edges of those read. -/
def olderOf (newEdge : TemporalEdge Id) (existing : List (EdgeRow Id)) : List (EdgeRow Id) :=
  existing.filter fun oldEdge => decide (oldEdge.occurredAt.instant < newEdge.occurredAt.instant)

/-- **What the loop over the existing edges does.** -/
theorem foldlM_conflicts (newEdge : TemporalEdge Id) (existing : List (EdgeRow Id)) :
    ∀ store : EdgeStore Id, (∀ row ∈ existing, row.id ∈ store.ids) → newEdge.id ∉ store.ids →
      existing.foldlM (fun store oldEdge =>
        if oldEdge.occurredAt.instant < newEdge.occurredAt.instant then
          (invalidateEdge settings store oldEdge.id (some newEdge.id)
            (some ("Superseded by newer " ++ newEdge.relationshipType ++ " edge"))).map Prod.fst
        else some store) store =
      if settings.foreignKeys = true ∧ olderOf newEdge existing ≠ [] then none
      else some { store with
        edges := supersedeIds newEdge ((olderOf newEdge existing).map fun row => row.id) store.edges } := by
  induction existing with
  | nil =>
    intro store _ _
    rw [List.foldlM_nil, if_neg (fun h => h.2 rfl)]
    simp [olderOf, supersedeIds_nil]
  | cons row existing ih =>
    intro store hids hnew
    rw [List.forall_mem_cons] at hids
    rw [List.foldlM_cons]
    by_cases hold : row.occurredAt.instant < newEdge.occurredAt.instant
    · have hcons : olderOf newEdge (row :: existing) = row :: olderOf newEdge existing :=
        List.filter_cons_of_pos (decide_eq_true hold)
      rw [if_pos hold, hcons, invalidateEdge, if_neg (not_not.mpr hids.1)]
      cases hfk : settings.foreignKeys with
      | true => simp [hnew]
      | false =>
        have hstep := ih { store with edges := supersedeIds newEdge [row.id] store.edges }
        rw [hfk] at hstep
        simp only [EdgeStore.ids, ids_supersedeIds] at hstep
        have hrest := hstep hids.2 hnew
        simp only [Bool.false_eq_true, false_and, if_false] at hrest ⊢
        rw [supersedeIds_cons] at hrest
        simpa [supersedeIds, supersede] using hrest
    · have hcons : olderOf newEdge (row :: existing) = olderOf newEdge existing :=
        List.filter_cons_of_neg (by simpa using hold)
      rw [if_neg hold, hcons]
      exact ih store hids.2 hnew

/-! ## The edges of one fact -/

/-- The namespace, the entities and the type. -/
def TemporalEdge.fact (edge : TemporalEdge Id) : Id × Id × Id × String :=
  (edge.namespaceId, edge.sourceEntityId, edge.targetEntityId, edge.relationshipType)

def rowsOf (fact : Id × Id × Id × String) (rows : List (EdgeRow Id)) : List (EdgeRow Id) :=
  rows.filter fun row => decide (row.fact = fact)

/-- The first valid edges of a fact. -/
def firstValid (rows : List (EdgeRow Id)) : List (EdgeRow Id) :=
  ((rows.filter fun row => row.isValid).insertionSort
    fun a b => a.occurredAt.instant ≤ b.occurredAt.instant).take pairLimit

omit [DecidableEq Id] in
theorem mem_firstValid {rows : List (EdgeRow Id)} {row : EdgeRow Id} (h : row ∈ firstValid rows) :
    row ∈ rows ∧ row.isValid = true := by
  have hmem := (List.mem_insertionSort _).mp (List.mem_of_mem_take h)
  exact List.mem_filter.mp hmem

omit [DecidableEq Id] in
/-- At most one hundred are read. -/
theorem length_firstValid_le (rows : List (EdgeRow Id)) : (firstValid rows).length ≤ pairLimit :=
  List.length_take_le _ _

omit [DecidableEq Id] in
/-- So few as are read at once are read. -/
theorem mem_firstValid_of_length {rows : List (EdgeRow Id)} {row : EdgeRow Id} (hrow : row ∈ rows)
    (hvalid : row.isValid = true) (hlength : (rows.filter fun row => row.isValid).length ≤ pairLimit) :
    row ∈ firstValid rows := by
  rw [firstValid, List.take_of_length_le (by rwa [List.length_insertionSort]), List.mem_insertionSort]
  exact List.mem_filter.mpr ⟨hrow, hvalid⟩

theorem getEdgesByEntityPair_eq (store : EdgeStore Id) {edge : TemporalEdge Id} (htype : edge.relationshipType ≠ "") :
    getEdgesByEntityPair store edge.sourceEntityId edge.targetEntityId edge.namespaceId edge.relationshipType =
      firstValid (rowsOf edge.fact store.edges) := by
  rw [getEdgesByEntityPair, firstValid, rowsOf, List.filter_filter]
  congr 2
  refine List.filter_congr fun row _ => ?_
  rw [Bool.and_comm]
  congr 1
  simp [TemporalEdge.fact, htype]

/-- The ids of the rows that a new edge supersedes. -/
def supersededIds (newEdge : TemporalEdge Id) (rows : List (EdgeRow Id)) : List Id :=
  (olderOf newEdge (firstValid rows)).map fun row => row.id

/-- What the creation of an edge does to the rows of its fact. -/
def arrive (rows : List (EdgeRow Id)) (newEdge : TemporalEdge Id) : List (EdgeRow Id) :=
  if settings.foreignKeys = true ∧ supersededIds newEdge rows ≠ [] then rows
  else supersedeIds newEdge (supersededIds newEdge rows) rows ++ [⟨newEdge, none, none⟩]

theorem rowsOf_supersedeIds (fact : Id × Id × Id × String) (newEdge : TemporalEdge Id) (ids : List Id)
    (rows : List (EdgeRow Id)) :
    rowsOf fact (supersedeIds newEdge ids rows) = supersedeIds newEdge ids (rowsOf fact rows) := by
  rw [rowsOf, supersedeIds, List.filter_map]
  congr 1
  refine List.filter_congr fun row _ => ?_
  rw [Function.comp_apply]
  split
  · rfl
  · rfl

/-- A day node is there, or a new one that counts nothing. -/
theorem dayNode_cases {store store' : EdgeStore Id} {namespaceId : Id} {dt : Occurrence}
    (h : getOrCreateDayNode settings store namespaceId dt = some store') :
    (store' = store ∧ ∃ node ∈ store.dayNodes, node.key = (namespaceId, dayStart dt)) ∨
      (store' = { store with dayNodes := store.dayNodes ++ [⟨namespaceId, dayStart dt, 0⟩] } ∧
        ∀ node ∈ store.dayNodes, node.key ≠ (namespaceId, dayStart dt)) := by
  unfold getOrCreateDayNode at h
  split at h
  · cases h
  split at h
  case isTrue hany =>
    obtain ⟨node, hnode, hkey⟩ := List.any_eq_true.mp hany
    exact .inl ⟨(Option.some.inj h).symm, node, hnode, of_decide_eq_true hkey⟩
  case isFalse hnone =>
    split at h
    · cases h
    · exact .inr ⟨(Option.some.inj h).symm, fun node hnode hkey =>
        hnone (List.any_eq_true.mpr ⟨node, hnode, decide_eq_true hkey⟩)⟩

/-- **When a day has a node.** -/
theorem isSome_getOrCreateDayNode (store : EdgeStore Id) (namespaceId : Id) (dt : Occurrence) :
    (getOrCreateDayNode settings store namespaceId dt).isSome = true ↔
      dt.clock < lastDay ∧ settings.binds (dayStart dt) = true ∧
        (dt.clock < year9999 ∨ ∃ node ∈ store.dayNodes, node.key = (namespaceId, dayStart dt)) := by
  unfold getOrCreateDayNode
  split
  case isTrue hraise =>
    simp only [Bool.or_eq_true, decide_eq_true_eq, Bool.not_eq_true'] at hraise
    refine ⟨fun h => (by cases h), fun ⟨hlast, hbinds, _⟩ => ?_⟩
    rcases hraise with hraise | hraise
    · omega
    · rw [hbinds] at hraise
      cases hraise
  case isFalse hfine =>
    simp only [Bool.or_eq_true, decide_eq_true_eq, Bool.not_eq_true', not_or, Bool.not_eq_false, not_le] at hfine
    split
    case isTrue hany =>
      obtain ⟨node, hnode, hkey⟩ := List.any_eq_true.mp hany
      exact ⟨fun _ => ⟨hfine.1, hfine.2, .inr ⟨node, hnode, of_decide_eq_true hkey⟩⟩, fun _ => rfl⟩
    case isFalse hnone =>
      split
      case isTrue hyear =>
        refine ⟨fun h => (by cases h), fun ⟨_, _, h⟩ => ?_⟩
        rcases h with h | ⟨node, hnode, hkey⟩
        · omega
        · exact absurd (List.any_eq_true.mpr ⟨node, hnode, decide_eq_true hkey⟩) hnone
      case isFalse hyear => exact ⟨fun _ => ⟨hfine.1, hfine.2, .inl (not_le.mp hyear)⟩, fun _ => rfl⟩

theorem edges_getOrCreateDayNode {store store' : EdgeStore Id} {namespaceId : Id} {dt : Occurrence}
    (h : getOrCreateDayNode settings store namespaceId dt = some store') :
    store'.edges = store.edges ∧ store'.links = store.links := by
  obtain ⟨rfl, -⟩ | ⟨rfl, -⟩ := dayNode_cases settings h
  · exact ⟨rfl, rfl⟩
  · exact ⟨rfl, rfl⟩

/-- **A created edge**: the call fails for a foreign key, or the older edges are superseded. -/
theorem createEdge_eq (store : EdgeStore Id) {edge : TemporalEdge Id}
    (hexclusive : settings.upper edge.relationshipType ∈ exclusiveTypes) (hdate : Datable settings store edge)
    (hid : edge.id ∉ store.ids)
    (hlink : ∀ l ∈ store.links, l.2 ≠ edge.id) :
    (settings.foreignKeys = true ∧ supersededIds edge (rowsOf edge.fact store.edges) ≠ [] →
      next settings store (.create edge true) = store) ∧
    (¬(settings.foreignKeys = true ∧ supersededIds edge (rowsOf edge.fact store.edges) ≠ []) →
      (next settings store (.create edge true)).edges =
          supersedeIds edge (supersededIds edge (rowsOf edge.fact store.edges)) store.edges ++ [⟨edge, none, none⟩] ∧
        ∀ l ∈ (next settings store (.create edge true)).links, l ∈ store.links ∨ l.2 = edge.id) := by
  have htype : edge.relationshipType ≠ "" := by
    intro hempty
    rw [hempty, settings.upper_empty] at hexclusive
    exact absurd hexclusive (by decide)
  have hconflicts : handleConflicts settings store edge =
      if settings.foreignKeys = true ∧ supersededIds edge (rowsOf edge.fact store.edges) ≠ [] then none
      else some { store with
        edges := supersedeIds edge (supersededIds edge (rowsOf edge.fact store.edges)) store.edges } := by
    rw [handleConflicts, if_pos hexclusive, getEdgesByEntityPair_eq store htype, foldlM_conflicts settings edge _ store
      (fun row hrow => ?_) hid, supersededIds]
    · simp only [ne_eq, List.map_eq_nil_iff]
    · exact List.mem_map_of_mem (List.mem_filter.mp (mem_firstValid hrow).1).1
  constructor
  · intro hfail
    rw [next, createEdge, if_pos rfl, hconflicts, if_pos hfail]
    rfl
  · intro hdone
    rw [next, createEdge, if_pos rfl, hconflicts, if_neg hdone, Option.bind_some, if_neg]
    · rw [linkToTimeNode]
      simp only
      obtain ⟨between, hbetween⟩ := Option.isSome_iff_exists.mp ((isSome_getOrCreateDayNode settings { store with
        edges := supersedeIds edge (supersededIds edge (rowsOf edge.fact store.edges)) store.edges ++
          [⟨edge, none, none⟩] } edge.namespaceId edge.occurredAt).mpr hdate.2)
      obtain ⟨hedges, hlinks⟩ := edges_getOrCreateDayNode settings hbetween
      rw [hbetween, Option.bind_some, if_neg]
      · refine ⟨hedges, fun l hl => ?_⟩
        rcases List.mem_cons.mp hl with rfl | hl
        · exact .inr rfl
        · rw [hlinks] at hl
          exact .inl hl
      · rw [hlinks]
        exact fun hmem => hlink _ hmem rfl
    · rw [EdgeStore.ids, ids_supersedeIds, hdate.1, Bool.or_eq_true, decide_eq_true_eq, not_or]
      exact ⟨hid, by simp⟩

/-- Edges of one exclusive fact, of which the store has none yet. -/
structure NewFact (store : EdgeStore Id) (fact : Id × Id × Id × String) (arrivals : List (TemporalEdge Id)) :
    Prop where
  sameFact : ∀ e ∈ arrivals, e.fact = fact
  exclusive : settings.upper fact.2.2.2 ∈ exclusiveTypes
  distinct : arrivals.Pairwise fun a b => a.occurredAt.instant ≠ b.occurredAt.instant
  ids : (arrivals.map TemporalEdge.id).Nodup
  newRows : ∀ row ∈ store.edges, row.fact ≠ fact ∧ row.id ∉ arrivals.map TemporalEdge.id
  newLinks : ∀ l ∈ store.links, l.2 ∉ arrivals.map TemporalEdge.id

/-- **The rows of the fact**, and no others, are what the edges become one after another. -/
theorem rowsOf_createAll {fact : Id × Id × Id × String} (hexclusive : settings.upper fact.2.2.2 ∈ exclusiveTypes)
    {ids : List Id} {arrivals : List (TemporalEdge Id)} (hfact : ∀ e ∈ arrivals, e.fact = fact)
    (hids : (arrivals.map TemporalEdge.id).Nodup) (store : EdgeStore Id)
    (hrows : ∀ row ∈ store.edges, row.id ∉ arrivals.map TemporalEdge.id)
    (hlinks : ∀ l ∈ store.links, l.2 ∉ arrivals.map TemporalEdge.id)
    (hours : ∀ row ∈ store.edges, row.id ∈ ids → row.fact = fact)
    (hdates : Runs.Guarded (next settings) (Dated settings) store (arrivals.map fun edge => .create edge true)) :
    rowsOf fact (createAll settings store arrivals).edges = arrivals.foldl (arrive settings) (rowsOf fact store.edges) ∧
      ∀ row ∈ (createAll settings store arrivals).edges, row.id ∈ ids → row.fact = fact := by
  induction arrivals generalizing store with
  | nil => exact ⟨rfl, hours⟩
  | cons edge arrivals ih =>
    rw [List.forall_mem_cons] at hfact
    rw [List.map_cons, List.nodup_cons] at hids
    obtain ⟨rfl, hfacts⟩ := hfact
    have hid : edge.id ∉ store.ids := by
      intro hmem
      obtain ⟨row, hrow, heq⟩ := List.mem_map.mp hmem
      exact hrows row hrow (heq ▸ List.mem_cons_self)
    have hlink : ∀ l ∈ store.links, l.2 ≠ edge.id := fun l hl heq => hlinks l hl (heq ▸ List.mem_cons_self)
    have hsub : ∀ i, i ∉ (edge :: arrivals).map TemporalEdge.id → i ∉ arrivals.map TemporalEdge.id :=
      fun i hi hmem => hi (List.mem_cons_of_mem _ hmem)
    obtain ⟨hdate, hdates⟩ := hdates
    obtain ⟨hfail, hdone⟩ := createEdge_eq settings store hexclusive hdate hid hlink
    rw [createAll, List.map_cons, Runs.run_cons, List.foldl_cons, arrive]
    by_cases hcase : settings.foreignKeys = true ∧ supersededIds edge (rowsOf edge.fact store.edges) ≠ []
    · rw [hfail hcase] at hdates ⊢
      rw [if_pos hcase]
      exact ih hfacts hids.2 store (fun row hrow => hsub _ (hrows row hrow)) (fun l hl => hsub _ (hlinks l hl)) hours
        hdates
    · obtain ⟨hedges, hnext⟩ := hdone hcase
      have hcreated : rowsOf edge.fact (next settings store (.create edge true)).edges =
          supersedeIds edge (supersededIds edge (rowsOf edge.fact store.edges)) (rowsOf edge.fact store.edges) ++
            [⟨edge, none, none⟩] := by
        rw [hedges, rowsOf, List.filter_append]
        congr 1
        · exact rowsOf_supersedeIds _ _ _ _
        · exact List.filter_cons_of_pos (decide_eq_true rfl)
      have hold : ∀ row ∈ (next settings store (.create edge true)).edges, row = ⟨edge, none, none⟩ ∨
          ∃ old ∈ store.edges, row.id = old.id ∧ row.fact = old.fact := by
        intro row hrow
        rw [hedges] at hrow
        rcases List.mem_append.mp hrow with hrow | hrow
        · obtain ⟨old, hmem, rfl⟩ := List.mem_map.mp hrow
          refine .inr ⟨old, hmem, ?_⟩
          split
          · exact ⟨rfl, rfl⟩
          · exact ⟨rfl, rfl⟩
        · exact .inl (List.mem_singleton.mp hrow)
      rw [if_neg hcase, ← hcreated]
      refine ih hfacts hids.2 _ (fun row hrow => ?_) (fun l hl => ?_) (fun row hrow hmem => ?_) hdates
      · rcases hold row hrow with rfl | ⟨old, hmem, hid', -⟩
        · exact hids.1
        · rw [hid']
          exact hsub _ (hrows old hmem)
      · rcases hnext l hl with hl | hl
        · exact hsub _ (hlinks l hl)
        · rw [hl]
          exact hids.1
      · rcases hold row hrow with rfl | ⟨old, hold, hid', hfact'⟩
        · rfl
        · rw [hfact']
          exact hours old hold (hid' ▸ hmem)

/-! ## The rows after the arrivals -/

section Arrivals

variable {settings}

/-- The rows of a fact after these arrivals. -/
abbrev arrived (settings : Settings) (arrivals : List (TemporalEdge Id)) : List (EdgeRow Id) :=
  arrivals.foldl (arrive settings) []

theorem arrived_concat (arrivals : List (TemporalEdge Id)) (edge : TemporalEdge Id) :
    arrived settings (arrivals ++ [edge]) = arrive settings (arrived settings arrivals) edge := by
  rw [arrived, List.foldl_append, List.foldl_cons, List.foldl_nil]

theorem ids_arrived (arrivals : List (TemporalEdge Id)) :
    ((arrived settings arrivals).map fun row => row.id).Sublist (arrivals.map TemporalEdge.id) := by
  induction arrivals using List.reverseRecOn with
  | nil => exact List.Sublist.refl _
  | append_singleton arrivals edge ih =>
    rw [arrived_concat, arrive, List.map_append]
    split
    · exact ih.trans (List.sublist_append_left _ _)
    · rw [List.map_append, ids_supersedeIds]
      exact ih.append (List.Sublist.refl _)

theorem mem_ids_arrived (hfk : settings.foreignKeys = false) {arrivals : List (TemporalEdge Id)}
    {e : TemporalEdge Id} (he : e ∈ arrivals) : ∃ row ∈ arrived settings arrivals, row.id = e.id := by
  have hids : ((arrived settings arrivals).map fun row => row.id) = arrivals.map TemporalEdge.id := by
    clear he
    induction arrivals using List.reverseRecOn with
    | nil => rfl
    | append_singleton arrivals edge ih =>
      rw [arrived_concat, arrive, if_neg (by simp [hfk]), List.map_append, List.map_append, ids_supersedeIds, ih]
      rfl
  exact List.mem_map.mp (hids ▸ List.mem_map_of_mem he)

/-- A row of the rows after an arrival is new, or superseded now, or as it was. -/
theorem mem_arrive {rows : List (EdgeRow Id)} (hrows : (rows.map fun row => row.id).Nodup)
    {edge : TemporalEdge Id} {row : EdgeRow Id} (h : row ∈ arrive settings rows edge) :
    row = ⟨edge, none, none⟩ ∨
      (∃ old ∈ rows, old.isValid = true ∧ old.occurredAt.instant < edge.occurredAt.instant ∧
        settings.foreignKeys = false ∧ row = supersede edge old) ∨
      row ∈ rows := by
  unfold arrive at h
  split at h
  · exact .inr (.inr h)
  case isFalse hcase =>
    rcases List.mem_append.mp h with h | h
    · obtain ⟨old, hold, rfl⟩ := List.mem_map.mp h
      split
      case isTrue hmem =>
        obtain ⟨other, hother, hid⟩ := List.mem_map.mp hmem
        obtain ⟨hfirst, holder⟩ := List.mem_filter.mp hother
        obtain ⟨hrow, hvalid⟩ := mem_firstValid hfirst
        obtain rfl := List.inj_on_of_nodup_map hrows hrow hold hid
        refine .inr (.inl ⟨other, hold, hvalid, of_decide_eq_true holder, ?_, rfl⟩)
        have hne : supersededIds edge rows ≠ [] := List.ne_nil_of_mem hmem
        simpa [hne] using hcase
      case isFalse => exact .inr (.inr hold)
    · exact .inl (List.mem_singleton.mp h)

/-- **What is known of a row**: the edge that it was created from, and what superseded it. -/
theorem exists_arrival {arrivals : List (TemporalEdge Id)} (hids : (arrivals.map TemporalEdge.id).Nodup)
    {row : EdgeRow Id} (hrow : row ∈ arrived settings arrivals) :
    ∃ e ∈ arrivals, row.id = e.id ∧ row.occurredAt = e.occurredAt ∧ (row.isValid = true → e.isValid = true) ∧
      ((row.invalidatedById = none ∧ row.isValid = e.isValid) ∨
        (settings.foreignKeys = false ∧ e.isValid = true ∧ ∃ e' ∈ arrivals, row.invalidatedById = some e'.id ∧
          e.occurredAt.instant < e'.occurredAt.instant)) := by
  induction arrivals using List.reverseRecOn generalizing row with
  | nil => cases hrow
  | append_singleton arrivals edge ih =>
    rw [arrived_concat] at hrow
    have hinit : (arrivals.map TemporalEdge.id).Nodup := by
      rw [List.map_append] at hids
      exact hids.of_append_left
    have hlast : edge ∈ arrivals ++ [edge] := List.mem_append_right _ (List.mem_singleton.mpr rfl)
    have hnodup := hinit.sublist (@ids_arrived _ _ settings arrivals)
    rcases mem_arrive hnodup hrow with rfl | ⟨old, hold, hvalid, holder, hfk, rfl⟩ | hold
    · exact ⟨edge, hlast, rfl, rfl, id, .inl ⟨rfl, rfl⟩⟩
    · obtain ⟨e, he, hid, hocc, hev, -⟩ := ih hinit hold
      refine ⟨e, List.mem_append_left _ he, hid, hocc, fun h => absurd h (by simp [supersede]),
        .inr ⟨hfk, hev hvalid, edge, hlast, rfl, ?_⟩⟩
      rwa [← hocc]
    · obtain ⟨e, he, hid, hocc, hev, hcase⟩ := ih hinit hold
      refine ⟨e, List.mem_append_left _ he, hid, hocc, hev, hcase.imp id ?_⟩
      rintro ⟨hfk, hvalid, e', he', hby, hlt⟩
      exact ⟨hfk, hvalid, e', List.mem_append_left _ he', hby, hlt⟩

/-- The rows of the store that have the ids of the arrivals are those of the fact. -/
structure OwnRows (settings : Settings) (rows : List (EdgeRow Id)) (arrivals : List (TemporalEdge Id)) : Prop where
  sub : ∀ row ∈ arrived settings arrivals, row ∈ rows
  own : ∀ row ∈ rows, row.id ∈ arrivals.map TemporalEdge.id → row ∈ arrived settings arrivals

/-- The latest edge comes last, and not behind too many valid ones. -/
structure LatestLast (settings : Settings) (before : List (TemporalEdge Id) → List (EdgeRow Id))
    (arrivals : List (TemporalEdge Id)) : Prop where
  valid : ∀ e ∈ arrivals, e.isValid = true
  last : ∃ earlier last, arrivals = earlier ++ [last] ∧
    (∀ e ∈ earlier, e.occurredAt.instant < last.occurredAt.instant) ∧
    ((before earlier).filter fun row => row.isValid).length ≤ pairLimit ∧
    (settings.foreignKeys = true → earlier = [])

section Settled

variable {rows : List (EdgeRow Id)} {arrivals : List (TemporalEdge Id)}
  (hids : (arrivals.map TemporalEdge.id).Nodup) (hown : OwnRows settings rows arrivals)

include hids hown

theorem eq_of_refersTo_none {e e' : TemporalEdge Id} (he : e ∈ arrivals) (he' : e' ∈ arrivals)
    (hnone : ∀ row ∈ arrived settings arrivals, row.id = e.id → row.invalidatedById = none)
    (hchain : Relation.ReflTransGen (RefersTo rows) e.id e'.id) : e = e' := by
  rcases hchain.cases_head with heq | ⟨b, ⟨row, hrow, hid, hby⟩, -⟩
  · exact List.inj_on_of_nodup_map hids he he' heq
  · have hmem := hown.own row hrow (hid ▸ List.mem_map_of_mem he)
    rw [hnone row hmem hid] at hby
    cases hby

/-- From every edge the references lead to a valid one that is not earlier. -/
theorem leads_to_valid (hvalid : ∀ e ∈ arrivals, e.isValid = true)
    (hstored : ∀ e ∈ arrivals, ∃ row ∈ arrived settings arrivals, row.id = e.id) (bound : ℤ)
    (hbound : ∀ e ∈ arrivals, e.occurredAt.instant ≤ bound) {e : TemporalEdge Id} (he : e ∈ arrivals) :
    ∃ e' ∈ arrivals, IsValid rows e'.id ∧ Relation.ReflTransGen (RefersTo rows) e.id e'.id := by
  -- every reference is to a later edge
  induction hn : (bound - e.occurredAt.instant).toNat using Nat.strong_induction_on generalizing e with
  | _ n ih =>
    obtain ⟨row, hrow, hid⟩ := hstored e he
    obtain ⟨e₁, he₁, hid₁, -, -, hcase⟩ := exists_arrival hids hrow
    obtain rfl := List.inj_on_of_nodup_map hids he he₁ (hid.symm.trans hid₁)
    rcases hcase with ⟨-, hrv⟩ | ⟨-, -, e', he', hby, hlt⟩
    · exact ⟨e, he, ⟨row, hown.sub row hrow, hid, hrv.trans (hvalid e he)⟩, .refl⟩
    · have hle := hbound e' he'
      obtain ⟨e'', he'', hv, hchain⟩ := ih _ (by omega) he' rfl
      exact ⟨e'', he'', hv, .head ⟨row, hown.sub row hrow, hid, hby⟩ hchain⟩

end Settled

/-- A new edge is valid as it was given. -/
theorem last_valid (settings : Settings) (earlier : List (TemporalEdge Id)) (last : TemporalEdge Id)
    (hfk : settings.foreignKeys = true → earlier = []) :
    (⟨last, none, none⟩ : EdgeRow Id) ∈ arrived settings (earlier ++ [last]) := by
  rw [arrived_concat, arrive, if_neg]
  · exact List.mem_append_right _ (List.mem_singleton.mpr rfl)
  · rintro ⟨hon, hne⟩
    rw [hfk hon] at hne
    exact hne rfl

theorem mem_arrive_of_notMem {rows : List (EdgeRow Id)} (edge : TemporalEdge Id) (hfk : settings.foreignKeys = false)
    {row : EdgeRow Id} (hrow : row ∈ rows) (hid : row.id ∉ supersededIds edge rows) :
    row ∈ arrive settings rows edge := by
  rw [arrive, if_neg (by simp [hfk])]
  exact List.mem_append_left _ (List.mem_map.mpr ⟨row, hrow, if_neg hid⟩)

/-- More than are read at once are not all superseded. -/
theorem exists_notMem_supersededIds {rows : List (EdgeRow Id)} (edge : TemporalEdge Id)
    (hids : (rows.map fun row => row.id).Nodup)
    (hmany : pairLimit < (rows.filter fun row => row.isValid).length) :
    ∃ row ∈ rows, row.isValid = true ∧ row.id ∉ supersededIds edge rows := by
  by_contra hnone
  push Not at hnone
  have hsub : ((rows.filter fun row => row.isValid).map fun row => row.id) ⊆ supersededIds edge rows := by
    intro i hi
    obtain ⟨row, hrow, rfl⟩ := List.mem_map.mp hi
    obtain ⟨hmem, hvalid⟩ := List.mem_filter.mp hrow
    exact hnone row hmem hvalid
  have hfilter : (rows.filter fun row => row.isValid).Sublist rows := List.filter_sublist
  have hnodup := hids.sublist (hfilter.map fun row => row.id)
  have hle := (hnodup.subperm hsub).length_le
  rw [supersededIds, List.length_map, List.length_map] at hle
  have hfew : (olderOf edge (firstValid rows)).length ≤ pairLimit :=
    (List.length_filter_le _ _).trans (length_firstValid_le _)
  omega

omit [DecidableEq Id] in
/-- Older rows that are read at once are all superseded. -/
theorem mem_supersededIds {rows : List (EdgeRow Id)} {edge : TemporalEdge Id} {row : EdgeRow Id} (hrow : row ∈ rows)
    (hvalid : row.isValid = true) (hold : row.occurredAt.instant < edge.occurredAt.instant)
    (hcount : (rows.filter fun row => row.isValid).length ≤ pairLimit) : row.id ∈ supersededIds edge rows :=
  List.mem_map_of_mem (List.mem_filter.mpr ⟨mem_firstValid_of_length hrow hvalid hcount, decide_eq_true hold⟩)

section Latest

variable {rows : List (EdgeRow Id)} {before : List (TemporalEdge Id) → List (EdgeRow Id)}

omit [DecidableEq Id] in
/-- The last edge is not among the earlier ones. -/
theorem ne_last {earlier : List (TemporalEdge Id)} {last e : TemporalEdge Id}
    (hids : ((earlier ++ [last]).map TemporalEdge.id).Nodup) (he : e ∈ earlier) : e ≠ last := by
  rintro rfl
  rw [List.map_append, List.nodup_append] at hids
  exact hids.2.2 _ (List.mem_map_of_mem he) _ (List.mem_map_of_mem (List.mem_singleton.mpr rfl)) rfl

/-- An edge whose row refers to nothing is the latest, so every edge was created valid. -/
theorem LatestValid.created_valid {arrivals : List (TemporalEdge Id)}
    (hids : (arrivals.map TemporalEdge.id).Nodup) (hown : OwnRows settings rows arrivals)
    (h : LatestValid rows arrivals) : ∀ e ∈ arrivals, e.isValid = true := by
  have hinj : ∀ e ∈ arrivals, ∀ e' ∈ arrivals, e.id = e'.id → e = e' := fun e he e' he' h =>
    List.inj_on_of_nodup_map hids he he' h
  obtain ⟨latest, hlatest, -, hvalid, hchain⟩ := h
  obtain ⟨row₀, hrow₀, hid₀, hv₀⟩ := (hvalid latest hlatest).mpr rfl
  intro e he
  by_contra hinvalid
  have heq := eq_of_refersTo_none hids hown he hlatest (fun row hmem hid => by
    obtain ⟨e₁, he₁, hid₁, -, -, hcase⟩ := exists_arrival hids hmem
    obtain rfl := hinj e he e₁ he₁ (hid.symm.trans hid₁)
    rcases hcase with ⟨hnone, -⟩ | ⟨-, hv, -⟩
    · exact hnone
    · exact absurd hv hinvalid) (hchain e he)
  have hrow := hown.own row₀ hrow₀ (hid₀ ▸ List.mem_map_of_mem hlatest)
  obtain ⟨e₁, he₁, hid₁, -, hev, -⟩ := exists_arrival hids hrow
  obtain rfl := hinj latest hlatest e₁ he₁ (hid₀.symm.trans hid₁)
  exact hinvalid (heq ▸ hev hv₀)

/-- Where the keys are enforced nothing is superseded, so there is one edge. -/
theorem LatestValid.alone {earlier : List (TemporalEdge Id)} {last : TemporalEdge Id}
    (hids : ((earlier ++ [last]).map TemporalEdge.id).Nodup) (hown : OwnRows settings rows (earlier ++ [last]))
    (h : LatestValid rows (earlier ++ [last])) (hon : settings.foreignKeys = true) : earlier = [] := by
  obtain ⟨latest, hlatest, -, -, hchain⟩ := h
  have hone : ∀ e ∈ earlier ++ [last], e = latest := fun e he =>
    eq_of_refersTo_none hids hown he hlatest (fun row hmem _ => by
      obtain ⟨e₁, -, -, -, -, hcase⟩ := exists_arrival hids hmem
      rcases hcase with ⟨hnone, -⟩ | ⟨hoff, -⟩
      · exact hnone
      · rw [hon] at hoff
        cases hoff) (hchain e he)
  by_contra hne
  obtain ⟨e, he⟩ := List.exists_mem_of_ne_nil earlier hne
  have hlast := hone last (List.mem_append_right _ (List.mem_singleton.mpr rfl))
  exact ne_last hids he ((hone e (List.mem_append_left _ he)).trans hlast.symm)

theorem LatestValid.latestLast {arrivals : List (TemporalEdge Id)}
    (hdistinct : arrivals.Pairwise fun a b => a.occurredAt.instant ≠ b.occurredAt.instant)
    (hids : (arrivals.map TemporalEdge.id).Nodup) (hown : OwnRows settings rows arrivals)
    (hbefore : ∀ earlier, earlier <+: arrivals → before earlier = arrived settings earlier)
    (h : LatestValid rows arrivals) : LatestLast settings before arrivals := by
  have hall := h.created_valid hids hown
  refine ⟨hall, ?_⟩
  obtain ⟨latest, hlatest, hmax, hvalid, -⟩ := id h
  obtain ⟨earlier, last, rfl⟩ := (List.eq_nil_or_concat arrivals).resolve_left (List.ne_nil_of_mem hlatest)
  rw [List.concat_eq_append] at *
  have hlastMem : last ∈ earlier ++ [last] := List.mem_append_right _ (List.mem_singleton.mpr rfl)
  have hfk := h.alone hids hown
  obtain rfl : last = latest := (hvalid last hlastMem).mp
    ⟨_, hown.sub _ (last_valid settings earlier last hfk), rfl, hall last hlastMem⟩
  refine ⟨earlier, last, rfl, fun e he => ?_, ?_, hfk⟩
  · rw [List.pairwise_append] at hdistinct
    exact lt_of_le_of_ne (hmax e (List.mem_append_left _ he))
      (hdistinct.2.2 e he last (List.mem_singleton.mpr rfl))
  · rw [hbefore earlier (List.prefix_append _ _)]
    by_contra hmany
    obtain ⟨hdearlier, -⟩ := List.nodup_append.mp (List.map_append ▸ hids)
    -- a valid row that is not read stays valid
    obtain ⟨row, hmem, hv, hnot⟩ := exists_notMem_supersededIds last (hdearlier.sublist (ids_arrived earlier))
      (Nat.lt_of_not_le hmany)
    have hoff : settings.foreignKeys = false := by
      by_contra hon
      rw [hfk (by simpa using hon)] at hmem
      cases hmem
    obtain ⟨e, he, hid, -⟩ := exists_arrival hdearlier hmem
    have hstays : row ∈ rows := by
      apply hown.sub
      rw [arrived_concat]
      exact mem_arrive_of_notMem last hoff hmem hnot
    exact ne_last hids he ((hvalid e (List.mem_append_left _ he)).mp ⟨row, hstays, hid, hv⟩)

/-- No row that was valid before the last edge stays so. -/
theorem eq_last_of_isValid {earlier : List (TemporalEdge Id)} {last : TemporalEdge Id}
    (hids : ((earlier ++ [last]).map TemporalEdge.id).Nodup) (hown : OwnRows settings rows (earlier ++ [last]))
    (hlt : ∀ e ∈ earlier, e.occurredAt.instant < last.occurredAt.instant)
    (hcount : ((arrived settings earlier).filter fun row => row.isValid).length ≤ pairLimit)
    (hfk : settings.foreignKeys = true → earlier = []) {e : TemporalEdge Id} (he : e ∈ earlier ++ [last])
    (hvalid : IsValid rows e.id) : e = last := by
  obtain ⟨row, hmem, hid, hv⟩ := hvalid
  have hdearlier : (earlier.map TemporalEdge.id).Nodup := by
    rw [List.map_append] at hids
    exact hids.of_append_left
  have harrived := hown.own row hmem (hid ▸ List.mem_map_of_mem he)
  rw [arrived_concat, arrive] at harrived
  split at harrived
  case isTrue hfail =>
    rw [hfk hfail.1] at hfail
    exact absurd rfl hfail.2
  case isFalse =>
    rcases List.mem_append.mp harrived with hr | hr
    · obtain ⟨old, hold, rfl⟩ := List.mem_map.mp hr
      obtain ⟨e₁, he₁, -, hocc, -⟩ := exists_arrival hdearlier hold
      split at hv
      · cases hv
      case isFalse hnot =>
        refine absurd (mem_supersededIds hold hv ?_ hcount) hnot
        rw [hocc]
        exact hlt e₁ he₁
    · rw [List.mem_singleton.mp hr] at hid
      have hlastMem : last ∈ earlier ++ [last] := List.mem_append_right _ (List.mem_singleton.mpr rfl)
      exact List.inj_on_of_nodup_map hids he hlastMem hid.symm

theorem LatestLast.latestValid {arrivals : List (TemporalEdge Id)}
    (hids : (arrivals.map TemporalEdge.id).Nodup) (hown : OwnRows settings rows arrivals)
    (hbefore : ∀ earlier, earlier <+: arrivals → before earlier = arrived settings earlier)
    (h : LatestLast settings before arrivals) : LatestValid rows arrivals := by
  obtain ⟨hall, earlier, last, rfl, hlt, hcount, hfk⟩ := h
  rw [hbefore earlier (List.prefix_append _ _)] at hcount
  have hlastMem : last ∈ earlier ++ [last] := List.mem_append_right _ (List.mem_singleton.mpr rfl)
  have hmax : ∀ e ∈ earlier ++ [last], e.occurredAt.instant ≤ last.occurredAt.instant := by
    intro e he
    rcases List.mem_append.mp he with he | he
    · exact (hlt e he).le
    · rw [List.mem_singleton.mp he]
  have hnew := last_valid settings earlier last hfk
  have hstored : ∀ e ∈ earlier ++ [last], ∃ row ∈ arrived settings (earlier ++ [last]), row.id = e.id := by
    intro e he
    cases hcase : settings.foreignKeys with
    | false => exact mem_ids_arrived hcase he
    | true =>
      rw [hfk hcase] at he ⊢
      rw [List.mem_singleton.mp he]
      exact ⟨_, last_valid settings [] last fun _ => rfl, rfl⟩
  refine ⟨last, hlastMem, hmax, fun e he => ⟨eq_last_of_isValid hids hown hlt hcount hfk he, ?_⟩, fun e he => ?_⟩
  · rintro rfl
    exact ⟨_, hown.sub _ hnew, rfl, hall e he⟩
  · obtain ⟨e', he', hv, hchain⟩ := leads_to_valid hids hown hall hstored last.occurredAt.instant hmax he
    rwa [eq_last_of_isValid hids hown hlt hcount hfk he' hv] at hchain

/-- **When the latest edge alone is valid in the end.** -/
theorem latestValid_iff {arrivals : List (TemporalEdge Id)}
    (hdistinct : arrivals.Pairwise fun a b => a.occurredAt.instant ≠ b.occurredAt.instant)
    (hids : (arrivals.map TemporalEdge.id).Nodup) (hown : OwnRows settings rows arrivals)
    (hbefore : ∀ earlier, earlier <+: arrivals → before earlier = arrived settings earlier) :
    LatestValid rows arrivals ↔ LatestLast settings before arrivals :=
  ⟨fun h => h.latestLast hdistinct hids hown hbefore, fun h => h.latestValid hids hown hbefore⟩

end Latest

end Arrivals

/-! ## The counts -/

/-- The counts are exact, every edge is linked to a node, and no link is to what is not there. -/
structure Linked (store : EdgeStore Id) : Prop where
  exact : CountsExact store
  node : ∀ row ∈ store.edges, ∃ node ∈ store.dayNodes, (node.key, row.id) ∈ store.links
  edge : ∀ l ∈ store.links, l.2 ∈ store.ids ∧ ∃ node ∈ store.dayNodes, node.key = l.1

theorem linked_empty : Linked (EdgeStore.empty : EdgeStore Id) :=
  ⟨fun _ h => absurd h List.not_mem_nil, fun _ h => absurd h List.not_mem_nil, fun _ h => absurd h List.not_mem_nil⟩

/-- Edges under the same ids are linked as before. -/
theorem Linked.of_ids {store store' : EdgeStore Id} (h : Linked store) (hids : store'.ids = store.ids)
    (hnodes : store'.dayNodes = store.dayNodes) (hlinks : store'.links = store.links) : Linked store' := by
  have hcount : ∀ node, linkedEdges store' node = linkedEdges store node := by
    intro node
    have hmap : ∀ s : EdgeStore Id, linkedEdges s node =
        s.ids.countP fun i => decide ((node.key, i) ∈ s.links) := by
      intro s
      rw [EdgeStore.ids, List.countP_map]
      rfl
    rw [hmap, hmap, hids, hlinks]
  refine ⟨fun node hnode => ?_, fun row hrow => ?_, fun l hl => ?_⟩
  · rw [hcount]
    exact h.exact node (hnodes ▸ hnode)
  · have hid : row.id ∈ store.ids := hids ▸ List.mem_map_of_mem hrow
    obtain ⟨old, hold, heq⟩ := List.mem_map.mp hid
    rw [hnodes, hlinks, ← heq]
    exact h.node old hold
  · rw [hids, hnodes]
    exact h.edge l (hlinks ▸ hl)

theorem ids_invalidateEdge {store : EdgeStore Id} {edgeId : Id} {invalidatedBy : Option Id} {reason : Option String}
    {r : EdgeStore Id × Bool} (h : invalidateEdge settings store edgeId invalidatedBy reason = some r) :
    r.1.ids = store.ids ∧ r.1.dayNodes = store.dayNodes ∧ r.1.links = store.links := by
  unfold invalidateEdge at h
  split at h
  · cases h
    exact ⟨rfl, rfl, rfl⟩
  · split at h
    · cases h
    · cases h
      refine ⟨?_, rfl, rfl⟩
      rw [EdgeStore.ids, List.map_map]
      refine List.map_congr_left fun row _ => ?_
      rw [Function.comp_apply]
      split
      · rfl
      · rfl

theorem ids_handleConflicts {store store' : EdgeStore Id} {newEdge : TemporalEdge Id}
    (h : handleConflicts settings store newEdge = some store') :
    store'.ids = store.ids ∧ store'.dayNodes = store.dayNodes ∧ store'.links = store.links := by
  unfold handleConflicts at h
  simp only at h
  split at h
  · generalize getEdgesByEntityPair store _ _ _ _ = existing at h
    induction existing generalizing store with
    | nil =>
      cases h
      exact ⟨rfl, rfl, rfl⟩
    | cons row existing ih =>
      rw [List.foldlM_cons] at h
      obtain ⟨between, hstep, hrest⟩ := Option.bind_eq_some_iff.mp h
      obtain ⟨hids, hnodes, hlinks⟩ := ih hrest
      split at hstep
      · obtain ⟨r, hr, rfl⟩ := Option.map_eq_some_iff.mp hstep
        obtain ⟨hids', hnodes', hlinks'⟩ := ids_invalidateEdge settings hr
        exact ⟨hids.trans hids', hnodes.trans hnodes', hlinks.trans hlinks'⟩
      · cases hstep
        exact ⟨hids, hnodes, hlinks⟩
  · cases h
    exact ⟨rfl, rfl, rfl⟩

/-- The day node is there, and counts what is linked to it. -/
theorem Linked.getOrCreate {store : EdgeStore Id} (h : Linked store) {rows : List (EdgeRow Id)} {namespaceId : Id}
    {dt : Occurrence} {store' : EdgeStore Id}
    (hnode : getOrCreateDayNode settings { store with edges := rows } namespaceId dt = some store') :
    (∀ node ∈ store'.dayNodes, node.edgeCount = linkedEdges store node) ∧
      (∀ node ∈ store.dayNodes, node ∈ store'.dayNodes) ∧
      ∃ node ∈ store'.dayNodes, node.key = (namespaceId, dayStart dt) := by
  obtain ⟨rfl, hkey⟩ | ⟨rfl, hnone⟩ := dayNode_cases settings hnode
  · exact ⟨h.exact, fun _ hmem => hmem, hkey⟩
  · refine ⟨fun node hnode => ?_, fun _ hmem => List.mem_append_left _ hmem,
      _, List.mem_append_right _ (List.mem_singleton.mpr rfl), rfl⟩
    rcases List.mem_append.mp hnode with hnode | hnode
    · exact h.exact node hnode
    · rw [List.mem_singleton.mp hnode]
      symm
      refine List.countP_eq_zero.mpr fun row _ => ?_
      rw [decide_eq_true_eq]
      intro hlink
      obtain ⟨-, other, hother, hkey⟩ := h.edge _ hlink
      exact hnone other hother hkey

/-- **A new edge is counted.** -/
theorem Linked.add {store store' : EdgeStore Id} (h : Linked store) {edge : TemporalEdge Id} (hid : edge.id ∉ store.ids)
    (hstep : linkToTimeNode settings { store with edges := store.edges ++ [⟨edge, none, none⟩] } edge.namespaceId
      edge.id edge.occurredAt = some store') : Linked store' := by
  obtain ⟨between, hbetween, hstep⟩ := Option.bind_eq_some_iff.mp hstep
  obtain ⟨hcounts, hkept, own, hown, hkey⟩ := h.getOrCreate settings hbetween
  obtain ⟨hedges, hlinks⟩ := edges_getOrCreateDayNode settings hbetween
  rw [hlinks] at hstep
  split at hstep
  · cases hstep
  generalize hk : (edge.namespaceId, dayStart edge.occurredAt) = key at hstep hkey
  obtain rfl := Option.some.inj hstep
  simp only [incrementEdgeCount, hedges]
  have hnoLink : ∀ k, (k, edge.id) ∉ store.links := fun k hmem => hid (h.edge _ hmem).1
  constructor
  · intro node hnode
    obtain ⟨old, hold, rfl⟩ := List.mem_map.mp hnode
    have hsame : (if old.key = key then { old with edgeCount := old.edgeCount + 1 } else old).key = old.key := by
      split
      · rfl
      · rfl
    have hrest : store.edges.countP (fun row => decide ((old.key, row.id) ∈ (key, edge.id) :: store.links)) =
        linkedEdges store old := by
      refine List.countP_congr fun row hrow => ?_
      have hne : row.id ≠ edge.id := fun heq => hid (heq ▸ List.mem_map_of_mem hrow)
      simp [hne]
    rw [linkedEdges, List.countP_append, hsame, hrest, ← hcounts old hold]
    by_cases hcase : old.key = key
    · simp [hcase]
    · simp [hcase, hnoLink]
  · intro row hrow
    rcases List.mem_append.mp hrow with hrow | hrow
    · obtain ⟨node, hnode, hlink⟩ := h.node row hrow
      refine ⟨_, List.mem_map_of_mem (hkept node hnode), List.mem_cons_of_mem _ ?_⟩
      split
      · exact hlink
      · exact hlink
    · rw [List.mem_singleton.mp hrow]
      refine ⟨_, List.mem_map_of_mem hown, ?_⟩
      rw [if_pos hkey]
      exact List.mem_cons.mpr (.inl (Prod.ext hkey rfl))
  · have hsome : ∀ k, (∃ node ∈ between.dayNodes, node.key = k) → ∃ node ∈ between.dayNodes.map fun node =>
          if node.key = key then { node with edgeCount := node.edgeCount + 1 } else node, node.key = k := by
      rintro k ⟨node, hnode, rfl⟩
      refine ⟨_, List.mem_map_of_mem hnode, ?_⟩
      split
      · rfl
      · rfl
    intro l hl
    rcases List.mem_cons.mp hl with rfl | hl
    · exact ⟨by simp [EdgeStore.ids], hsome _ ⟨own, hown, hkey⟩⟩
    · obtain ⟨hmem, node, hnode, hnk⟩ := h.edge l hl
      refine ⟨?_, hsome _ ⟨node, hkept node hnode, hnk⟩⟩
      rw [EdgeStore.ids, List.map_append]
      exact List.mem_append_left _ hmem

theorem deleteRows_none {store : EdgeStore Id} {row : EdgeRow Id → Bool} (h : ∀ r ∈ store.edges, row r = false) :
    deleteRows settings store row = store := by
  have hgone : store.edges.filter row = [] := List.filter_eq_nil_iff.mpr fun r hr => by simp [h r hr]
  have hkept : (store.edges.filter fun r => !row r) = store.edges :=
    List.filter_eq_self.mpr fun r hr => by simp [h r hr]
  simp [deleteRows, hgone, hkept]

/-- **Every call that deletes no stored edge keeps the counts.** -/
theorem Linked.step {store : EdgeStore Id} (h : Linked store) {op : EdgeOp Id} (hop : DeletesNone store op) :
    Linked (next settings store op) := by
  cases op with
  | create edge checkConflicts =>
    rw [next]
    cases hcreate : createEdge settings store edge checkConflicts with
    | none => exact h
    | some store' =>
      obtain ⟨between, hbetween, hrest⟩ := Option.bind_eq_some_iff.mp hcreate
      have hlinked : Linked between := by
        split at hbetween
        · obtain ⟨hids, hnodes, hlinks⟩ := ids_handleConflicts settings hbetween
          exact h.of_ids hids hnodes hlinks
        · cases hbetween
          exact h
      split at hrest
      · cases hrest
      case isFalse hid =>
        rw [Bool.or_eq_true, not_or, decide_eq_true_eq] at hid
        exact hlinked.add settings hid.1 hrest
  | invalidate edgeId invalidatedBy reason =>
    rw [next]
    cases hinv : invalidateEdge settings store edgeId invalidatedBy reason with
    | none => exact h
    | some r =>
      obtain ⟨hids, hnodes, hlinks⟩ := ids_invalidateEdge settings hinv
      exact h.of_ids hids hnodes hlinks
  | delete edgeId =>
    rw [next, deleteEdge, deleteRows_none settings fun r hr => decide_eq_false (hop r hr)]
    exact h
  | deleteByEntity entityId namespaceId =>
    rw [next, deleteEdgesByEntity, deleteRows_none settings hop]
    exact h

/-- **A deleted edge is still counted.** -/
theorem not_countsExact_deleteRows {store : EdgeStore Id} (h : Linked store) {row : EdgeRow Id → Bool} {r : EdgeRow Id}
    (hr : r ∈ store.edges) (hrow : row r = true) : ¬CountsExact (deleteRows settings store row) := by
  intro hexact
  obtain ⟨node, hnode, hlink⟩ := h.node r hr
  have hnodes : (deleteRows settings store row).dayNodes = store.dayNodes := by
    unfold deleteRows
    simp only
    split
    · rfl
    · rfl
  have hcount := (h.exact node hnode).symm.trans (hexact node (hnodes ▸ hnode))
  have hle : linkedEdges (deleteRows settings store row) node ≤
      (store.edges.filter fun r => !row r).countP fun r => decide ((node.key, r.id) ∈ store.links) := by
    unfold deleteRows linkedEdges
    simp only
    split
    · rw [List.countP_map]
      refine List.countP_mono_left fun e _ hmem => ?_
      rw [Function.comp_apply, decide_eq_true_eq] at hmem
      have hsame : (if e.invalidatedById.any (fun i => decide (i ∈ (store.edges.filter row).map fun r => r.id)) then
          { e with invalidatedById := none } else e).id = e.id := by
        split
        · rfl
        · rfl
      rw [hsame] at hmem
      exact decide_eq_true (List.mem_filter.mp hmem).1
    · exact Nat.le_refl _
  have hlt : ((store.edges.filter fun r => !row r).countP fun r => decide ((node.key, r.id) ∈ store.links)) <
      linkedEdges store node := by
    have hsplit := List.countP_eq_countP_filter_add store.edges (fun r => decide ((node.key, r.id) ∈ store.links))
      fun r => !row r
    have hpos : 0 < (store.edges.filter fun r => !!row r).countP fun r => decide ((node.key, r.id) ∈ store.links) :=
      List.countP_pos_iff.mpr ⟨r, List.mem_filter.mpr ⟨hr, by simp [hrow]⟩, decide_eq_true hlink⟩
    rw [linkedEdges]
    omega
  omega

/-- A call that deletes a stored edge leaves a count too large. -/
theorem not_countsExact_step {store : EdgeStore Id} (h : Linked store) {op : EdgeOp Id}
    (hop : ¬DeletesNone store op) : ¬CountsExact (next settings store op) := by
  cases op with
  | create | invalidate => exact absurd trivial hop
  | delete edgeId =>
    simp only [DeletesNone, not_forall] at hop
    obtain ⟨r, hr, hid⟩ := hop
    exact not_countsExact_deleteRows settings h hr (decide_eq_true (not_not.mp hid))
  | deleteByEntity entityId namespaceId =>
    simp only [DeletesNone, not_forall] at hop
    obtain ⟨r, hr, htouches⟩ := hop
    exact not_countsExact_deleteRows settings h hr (by simpa using htouches)

/-! ## Conflicts and counts -/

/-- The rows of the fact in the store are those that the arrivals leave. -/
theorem NewFact.rows {settings : Settings} {store : EdgeStore Id} {fact : Id × Id × Id × String}
    {arrivals : List (TemporalEdge Id)} (h : NewFact settings store fact arrivals)
    (hdates : Runs.Guarded (next settings) (Dated settings) store (arrivals.map fun edge => .create edge true))
    {earlier : List (TemporalEdge Id)} (hearlier : earlier <+: arrivals) :
    rowsOf fact (createAll settings store earlier).edges = arrived settings earlier ∧
      ∀ row ∈ (createAll settings store earlier).edges, row.id ∈ arrivals.map TemporalEdge.id → row.fact = fact := by
  have hsub : ∀ i, i ∉ arrivals.map TemporalEdge.id → i ∉ earlier.map TemporalEdge.id :=
    fun i hi hmem => hi ((hearlier.map TemporalEdge.id).subset hmem)
  have hnone : rowsOf fact store.edges = [] :=
    List.filter_eq_nil_iff.mpr fun row hrow => by simp [(h.newRows row hrow).1]
  have hrows := rowsOf_createAll settings h.exclusive (fun e he => h.sameFact e (hearlier.subset he))
    (h.ids.sublist (hearlier.map TemporalEdge.id).sublist) store (fun row hrow => hsub _ (h.newRows row hrow).2)
    (fun l hl => hsub _ (h.newLinks l hl)) (fun row hrow hmem => absurd hmem (h.newRows row hrow).2) (by
      obtain ⟨rest, rfl⟩ := hearlier
      rw [List.map_append] at hdates
      exact (Runs.guarded_append.mp hdates).1)
  rwa [hnone] at hrows

/-- An edge without a row or a day is not created. -/
theorem next_create_of_not_datable {store : EdgeStore Id} {edge : TemporalEdge Id} (checkConflicts : Bool)
    (h : ¬Datable settings store edge) : next settings store (.create edge checkConflicts) = store := by
  suffices hnone : createEdge settings store edge checkConflicts = none by
    rw [next, hnone]
    rfl
  refine Option.eq_none_iff_forall_ne_some.mpr fun store' hcreate => h ?_
  obtain ⟨between, hbetween, hrest⟩ := Option.bind_eq_some_iff.mp hcreate
  have hnodes : between.dayNodes = store.dayNodes := by
    split at hbetween
    · exact (ids_handleConflicts settings hbetween).2.1
    · cases hbetween
      rfl
  split at hrest
  · cases hrest
  case isFalse hrow =>
    rw [Bool.or_eq_true, not_or] at hrow
    obtain ⟨_, hday, -⟩ := Option.bind_eq_some_iff.mp hrest
    have hdate := (isSome_getOrCreateDayNode settings _ _ _).mp (Option.isSome_iff_exists.mpr ⟨_, hday⟩)
    rw [hnodes] at hdate
    exact ⟨by simpa using hrow.2, hdate⟩

/-- A call of `create_edge` adds at most one id. -/
theorem ids_next_create {store : EdgeStore Id} {edge : TemporalEdge Id} {checkConflicts : Bool} {i : Id}
    (hi : i ∈ (next settings store (.create edge checkConflicts)).ids) : i ∈ store.ids ∨ i = edge.id := by
  rw [next] at hi
  cases hcreate : createEdge settings store edge checkConflicts with
  | none =>
    rw [hcreate] at hi
    exact .inl hi
  | some store' =>
    rw [hcreate, Option.getD_some] at hi
    obtain ⟨between, hbetween, hrest⟩ := Option.bind_eq_some_iff.mp hcreate
    have hids : between.ids = store.ids := by
      split at hbetween
      · exact (ids_handleConflicts settings hbetween).1
      · cases hbetween
        rfl
    split at hrest
    · cases hrest
    obtain ⟨day, hday, hlink⟩ := Option.bind_eq_some_iff.mp hrest
    split at hlink
    · cases hlink
    obtain rfl := Option.some.inj hlink
    rw [EdgeStore.ids, incrementEdgeCount, (edges_getOrCreateDayNode settings hday).1, List.map_append] at hi
    rcases List.mem_append.mp hi with hi | hi
    · exact .inl (hids ▸ hi)
    · exact .inr (List.mem_singleton.mp hi)

theorem ids_createAll {arrivals : List (TemporalEdge Id)} {i : Id} (harrivals : i ∉ arrivals.map TemporalEdge.id)
    (store : EdgeStore Id) (hstore : i ∉ store.ids) : i ∉ (createAll settings store arrivals).ids := by
  induction arrivals generalizing store with
  | nil => exact hstore
  | cons edge arrivals ih =>
    rw [List.map_cons, List.mem_cons, not_or] at harrivals
    rw [createAll, List.map_cons, Runs.run_cons]
    exact ih harrivals.2 _ fun hi => (ids_next_create settings hi).elim hstore harrivals.1

/-- **Without a row there is no fact**: an arrival that is not created stays invalid, and refers to nothing. -/
theorem dated_of_latestValid {settings : Settings} {store : EdgeStore Id} {fact : Id × Id × Id × String}
    {arrivals : List (TemporalEdge Id)} (h : NewFact settings store fact arrivals)
    (hlatest : LatestValid (createAll settings store arrivals).edges arrivals) :
    Runs.Guarded (next settings) (Dated settings) store (arrivals.map fun edge => .create edge true) := by
  refine Runs.guarded_iff_split.mpr fun before op after hsplit => ?_
  obtain ⟨earlier, rest, rfl, rfl, hrest⟩ := List.map_eq_append_iff.mp hsplit
  obtain ⟨edge, later, rfl, rfl, rfl⟩ := List.map_eq_cons_iff.mp hrest
  by_contra hnot
  have hids := h.ids
  rw [List.map_append, List.map_cons, List.nodup_append, List.nodup_cons] at hids
  have hstore : edge.id ∉ store.ids := by
    intro hmem
    obtain ⟨row, hrow, hid⟩ := List.mem_map.mp hmem
    exact (h.newRows row hrow).2 (hid ▸ List.mem_map_of_mem (List.mem_append_right _ List.mem_cons_self))
  have hgone : edge.id ∉ (createAll settings store (earlier ++ edge :: later)).ids := by
    rw [createAll, List.map_append, List.map_cons, Runs.run_append, Runs.run_cons,
      next_create_of_not_datable settings true hnot]
    refine ids_createAll settings hids.2.1.1 _ (ids_createAll settings (fun hmem => ?_) store hstore)
    exact hids.2.2 _ hmem _ List.mem_cons_self rfl
  have hrows : ∀ row ∈ (createAll settings store (earlier ++ edge :: later)).edges, row.id ≠ edge.id :=
    fun row hrow hid => hgone (hid ▸ List.mem_map_of_mem hrow)
  obtain ⟨latest, hmem, -, hvalid, hchain⟩ := hlatest
  rcases (hchain edge (List.mem_append_right _ List.mem_cons_self)).cases_head with heq | ⟨_, ⟨row, hrow, hid, -⟩, -⟩
  · obtain ⟨row, hrow, hid, -⟩ := (hvalid latest hmem).mpr rfl
    exact hrows row hrow (hid.trans heq.symm)
  · exact hrows row hrow hid

/-- **Conflicts and counts.**  The latest edge of a fact alone is valid in the end exactly if every edge has
a row and a day, it comes last, not behind more valid ones than are read, and, where foreign keys are
enforced, behind none; and the counts of the day nodes are exact in every state exactly if no call deletes a
stored edge. -/
theorem conflictsAndCounts (settings : Settings) (store : EdgeStore Id) (fact : Id × Id × Id × String)
    (arrivals : List (TemporalEdge Id)) (h : NewFact settings store fact arrivals) (ops : List (EdgeOp Id)) :
    (LatestValid (createAll settings store arrivals).edges arrivals ↔
      Runs.Guarded (next settings) (Dated settings) store (arrivals.map fun edge => .create edge true) ∧
        LatestLast settings (fun earlier => rowsOf fact (createAll settings store earlier).edges) arrivals) ∧
    (Runs.Always (next settings) CountsExact .empty ops ↔ Runs.Guarded (next settings) DeletesNone .empty ops) := by
  constructor
  · have hsettled : Runs.Guarded (next settings) (Dated settings) store (arrivals.map fun edge => .create edge true) →
        (LatestValid (createAll settings store arrivals).edges arrivals ↔
          LatestLast settings (fun earlier => rowsOf fact (createAll settings store earlier).edges) arrivals) := by
      intro hdates
      obtain ⟨hrows, hours⟩ := h.rows hdates (List.prefix_refl arrivals)
      apply latestValid_iff h.distinct h.ids ?_ fun earlier hearlier => (h.rows hdates hearlier).1
      constructor
      · intro row hrow
        rw [← hrows] at hrow
        exact (List.mem_filter.mp hrow).1
      · intro row hrow hmem
        rw [← hrows]
        exact List.mem_filter.mpr ⟨hrow, decide_eq_true (hours row hrow hmem)⟩
    refine ⟨fun hlatest => ?_, fun ⟨hdates, hlast⟩ => (hsettled hdates).mpr hlast⟩
    have hdates := dated_of_latestValid h hlatest
    exact ⟨hdates, (hsettled hdates).mp hlatest⟩
  · exact Runs.always_iff_guarded (fun _ _ (_ : True) hs hop => hs.step settings hop) (fun _ hs => hs.exact)
      (fun _ _ (_ : True) hs hop => not_countsExact_step settings hs hop) (fun _ _ => trivial) linked_empty

end Model

/-- Employments of one person at one company. -/
def worksFor (id : ℕ) (hour : ℤ) : TemporalEdge ℕ := ⟨id, 0, 1, 2, "WORKS_FOR", ⟨hour * 3600000000, 0⟩, true, true⟩

def plainSettings (foreignKeys : Bool) : Settings := ⟨id, rfl, foreignKeys, fun instant => decide (0 ≤ instant)⟩

theorem worksFor_inOrder :
    LatestValid (createAll (plainSettings false) .empty [worksFor 7 1, worksFor 8 30]).edges
        [worksFor 7 1, worksFor 8 30] ∧
      Runs.Always (next (plainSettings false)) CountsExact .empty
        [.create (worksFor 7 1) true, .create (worksFor 8 30) true, .invalidate 8 none none] := by
  have h := conflictsAndCounts (plainSettings false) .empty (0, 1, 2, "WORKS_FOR") [worksFor 7 1, worksFor 8 30]
    ⟨by decide, by decide, by decide, by decide, by decide, by decide⟩
    [.create (worksFor 7 1) true, .create (worksFor 8 30) true, .invalidate 8 none none]
  exact ⟨h.1.mpr ⟨⟨⟨rfl, by decide, rfl, .inl (by decide)⟩, ⟨rfl, by decide, rfl, .inl (by decide)⟩, trivial⟩,
      by decide, [worksFor 7 1], worksFor 8 30, rfl, by decide, by decide, by decide⟩,
    h.2.mpr ⟨trivial, trivial, trivial, trivial⟩⟩

/-- An older fact that is learned later stays valid beside the newer one, with foreign keys or without; a
newer one fails with them; a fact of the last day of the calendar's last year is lost; and a deleted edge is
still counted. -/
theorem latestAndOlder :
    ¬LatestValid (createAll (plainSettings false) .empty [worksFor 8 30, worksFor 7 1]).edges
        [worksFor 8 30, worksFor 7 1] ∧
      ¬LatestValid (createAll (plainSettings true) .empty [worksFor 8 30, worksFor 7 1]).edges
        [worksFor 8 30, worksFor 7 1] ∧
      createEdge (plainSettings true) (createAll (plainSettings true) .empty [worksFor 7 1]) (worksFor 8 30) true =
        none ∧
      ¬LatestValid (createAll (plainSettings true) .empty [worksFor 9 (3652058 * 24)]).edges
        [worksFor 9 (3652058 * 24)] ∧
      ¬CountsExact (Runs.run (next (plainSettings true)) .empty [.create (worksFor 7 1) true, .delete 7]) := by
  have htwo : ∀ rows, IsValid rows 7 → IsValid rows 8 → ¬LatestValid rows [worksFor 8 30, worksFor 7 1] := by
    rintro rows h₇ h₈ ⟨latest, -, -, hvalid, -⟩
    have hnew := (hvalid (worksFor 8 30) (by decide)).mp h₈
    have hold := (hvalid (worksFor 7 1) (by decide)).mp h₇
    exact absurd (hnew.trans hold.symm) (by decide)
  refine ⟨htwo _ ?_ ?_, htwo _ ?_ ?_, by decide, ?_, ?_⟩
  · exact ⟨⟨worksFor 7 1, none, none⟩, by decide, rfl, rfl⟩
  · exact ⟨⟨worksFor 8 30, none, none⟩, by decide, rfl, rfl⟩
  · exact ⟨⟨worksFor 7 1, none, none⟩, by decide, rfl, rfl⟩
  · exact ⟨⟨worksFor 8 30, none, none⟩, by decide, rfl, rfl⟩
  · rintro ⟨latest, hlatest, -, hvalid, -⟩
    obtain ⟨row, hrow, -⟩ := (hvalid latest hlatest).mpr rfl
    exact absurd hrow List.not_mem_nil
  · intro h
    exact absurd (h ⟨0, 0, 1⟩ (by decide)) (by decide)

end TemporalEdges

end Khora
