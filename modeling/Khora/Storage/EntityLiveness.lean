import Khora.Lib.Runs
import Khora.Storage.SplitEntities

/-!
# Which entities are live

An entity is live while its `valid_until` is unset or in the future, in pgvector and in Neo4j
alike.  Dedupe of the dream phase stamps both stores; the replacement of a document retires nodes
only, and an upsert reopens the window of the row only.

* `SplitEntities.status_upsertNodes` — an upsert leaves the window of a node as it is.
* `live_agree_iff` — the stores agree in every state of a run, and list what the last upsert
  mentioned, if and only if no step mentions an entity whose node is retired and no replacement
  retires a live node.
* `remention_splits` — an entity that dedupe absorbed and a document mentions again.
-/

namespace Khora

section Stores

variable {I K A D : Type}

/-- `_entity_live_filter` -/
def EntityRecord.live (now : ℕ) (r : EntityRecord I K A D) : Bool :=
  match r.validUntil with
  | none => true
  | some t => decide (now < t)

/-- `list_entities`, of either store -/
def listEntities (now : ℕ) (l : List (EntityRecord I K A D)) : List (EntityRecord I K A D) :=
  l.filter (EntityRecord.live now)

def listedKeys (now : ℕ) (l : List (EntityRecord I K A D)) : List K :=
  (listEntities now l).map EntityRecord.key

def EntityRecord.node (n : EntityRecord I K A D) : EntityNode I K D :=
  ⟨n.id, n.key, n.sources, n.validUntil.isSome⟩

def EntityRecord.extracted (e : EntityRecord I K A D) : NewEntity I K D := ⟨e.id, e.key, e.sources⟩

variable [DecidableEq I]

/-- `retire_orphaned_entities_batch` on one node. -/
def retireRecord (now : ℕ) (ids : List I) (n : EntityRecord I K A D) : EntityRecord I K A D :=
  if n.id ∈ ids then { n with validUntil := some now } else n

/-- The soft-delete of an absorbed entity, and `soft_retire_entities_batch` which mirrors it. -/
def softRetireRecord (now : ℕ) (ids : List I) (r : EntityRecord I K A D) : EntityRecord I K A D :=
  if r.id ∈ ids ∧ r.validUntil = none then { r with validUntil := some now } else r

def changeSources (ids : List I) (f : List D → List D) (n : EntityRecord I K A D) : EntityRecord I K A D :=
  if n.id ∈ ids then { n with sources := f n.sources } else n

variable [DecidableEq K] [DecidableEq D]

/-- `remap_source_document_ids_batch` on one node. -/
def remapRecord (ids : List I) (oldDoc newDoc : D) : EntityRecord I K A D → EntityRecord I K A D :=
  changeSources ids (remapSources oldDoc newDoc)

/-- `remove_document_from_entity_sources_batch` on one node. -/
def stripRecord (ids : List I) (doc : D) : EntityRecord I K A D → EntityRecord I K A D :=
  changeSources ids (stripSource doc)

/-- The classification of `replace_document_extraction`, which reads the graph. -/
def SplitEntities.planReplace (s : SplitEntities I K A D) (oldDoc newDoc : D)
    (entities : List (EntityRecord I K A D)) : ReplacePlan I K D :=
  Khora.planReplace ⟨s.nodes.map EntityRecord.node, []⟩ oldDoc newDoc (entities.map EntityRecord.extracted) []

/-- `net_new_entities` -/
def SplitEntities.netNewEntities (s : SplitEntities I K A D) (oldDoc newDoc : D)
    (entities : List (EntityRecord I K A D)) : List (EntityRecord I K A D) :=
  entities.filter fun e => decide (e.key ∈ (s.planReplace oldDoc newDoc entities).netNewEntities.map NewEntity.key)

/-- The nodes after the verbs that find them by id. -/
def SplitEntities.replacedNodes (s : SplitEntities I K A D) (now : ℕ) (oldDoc newDoc : D)
    (entities : List (EntityRecord I K A D)) : List (EntityRecord I K A D) :=
  let plan := s.planReplace oldDoc newDoc entities
  ((s.nodes.map (retireRecord now plan.entityRetirement)).map
    (remapRecord plan.entityRemap oldDoc newDoc)).map (stripRecord plan.entityStrip oldDoc)

variable [DecidableEq A] [EmptyCollection A]

/-- `replace_document_extraction`, as far as entities are concerned: only net-new ones reach the
vector store. -/
def SplitEntities.replaceDocumentExtraction (s : SplitEntities I K A D) (now : ℕ) (oldDoc newDoc : D)
    (entities : List (EntityRecord I K A D)) : SplitEntities I K A D :=
  SplitEntities.upsertEntitiesBatch ⟨s.rows, s.replacedNodes now oldDoc newDoc entities⟩
    (s.netNewEntities oldDoc newDoc entities)

/-- A dedupe op that absorbs entities, with its mirror. -/
def SplitEntities.dedupe (s : SplitEntities I K A D) (now : ℕ) (absorbed : List I) : SplitEntities I K A D :=
  ⟨s.rows.map (softRetireRecord now absorbed), s.nodes.map (softRetireRecord now absorbed)⟩

end Stores

/-! ## The system -/

structure LivenessState (I K A D : Type) where
  stores : SplitEntities I K A D
  clock : ℕ
  /-- The keys of the last upsert that were not retired since. -/
  mentioned : List K

inductive LivenessAction (I K A D : Type) where
  | tick (elapsed : ℕ)
  | upsert (entities : List (EntityRecord I K A D))
  | replace (oldDoc newDoc : D) (entities : List (EntityRecord I K A D))
  | dedupe (absorbed : List I)

section System

variable {I K A D : Type}

/-- The extraction leaves `valid_until` unset. -/
def LivenessAction.unset : LivenessAction I K A D → Prop
  | .upsert entities | .replace _ _ entities => ∀ e ∈ entities, e.validUntil = none
  | .tick _ | .dedupe _ => True

instance (a : LivenessAction I K A D) : Decidable a.unset :=
  match a with
  | .upsert entities | .replace _ _ entities => inferInstanceAs (Decidable (∀ e ∈ entities, e.validUntil = none))
  | .tick _ | .dedupe _ => .isTrue trivial

def LivenessState.start : LivenessState I K A D := ⟨⟨[], []⟩, 0, []⟩

variable [DecidableEq I] [DecidableEq K]

/-- The keys that no node with one of the ids has. -/
def keysWithout (nodes : List (EntityRecord I K A D)) (ids : List I) (keys : List K) : List K :=
  keys.filter fun k => decide (k ∉ (nodes.filter fun n => decide (n.id ∈ ids)).map EntityRecord.key)

variable [DecidableEq D] [DecidableEq A] [EmptyCollection A]

def LivenessState.step (s : LivenessState I K A D) : LivenessAction I K A D → LivenessState I K A D
  | .tick elapsed => { s with clock := s.clock + elapsed }
  | .upsert entities =>
      { s with stores := s.stores.upsertEntitiesBatch entities, mentioned := entities.map EntityRecord.key }
  | .replace oldDoc newDoc entities =>
      { s with
        stores := s.stores.replaceDocumentExtraction s.clock oldDoc newDoc entities
        mentioned :=
          if s.stores.netNewEntities oldDoc newDoc entities = [] then
            keysWithout s.stores.nodes (s.stores.planReplace oldDoc newDoc entities).entityRetirement s.mentioned
          else (s.stores.netNewEntities oldDoc newDoc entities).map EntityRecord.key }
  | .dedupe absorbed =>
      { s with
        stores := s.stores.dedupe s.clock absorbed
        mentioned := keysWithout s.stores.nodes absorbed s.mentioned }

/-- The stores agree on the live entities, and those that the last upsert mentioned are live. -/
def LivenessState.Agrees (s : LivenessState I K A D) : Prop :=
  (∀ k, k ∈ listedKeys s.clock s.stores.rows ↔ k ∈ listedKeys s.clock s.stores.nodes) ∧
    ∀ k ∈ s.mentioned, k ∈ listedKeys s.clock s.stores.rows ∧ k ∈ listedKeys s.clock s.stores.nodes

/-- The entities that only the old document lists and the new extraction leaves out. -/
def orphanedBy (oldDoc : D) (entities : List (EntityRecord I K A D)) (n : EntityRecord I K A D) : Prop :=
  oldDoc ∈ n.sources ∧ n.sources.length = 1 ∧ n.key ∉ entities.map EntityRecord.key

/-- No retired entity is mentioned again, and none is retired in the graph alone. -/
def LivenessState.Keeps (s : LivenessState I K A D) : LivenessAction I K A D → Prop
  | .tick _ | .dedupe _ => True
  | .upsert entities => ∀ n ∈ s.stores.nodes, n.key ∈ entities.map EntityRecord.key → n.validUntil = none
  | .replace oldDoc _ entities =>
      (∀ n ∈ s.stores.nodes, (∃ m ∈ s.stores.nodes, orphanedBy oldDoc entities m ∧ m.id = n.id) →
        n.validUntil ≠ none) ∧
      ∀ n ∈ s.stores.nodes, n.key ∈ entities.map EntityRecord.key → oldDoc ∉ n.sources → n.validUntil = none

instance (oldDoc : D) (entities : List (EntityRecord I K A D)) (n : EntityRecord I K A D) :
    Decidable (orphanedBy oldDoc entities n) :=
  inferInstanceAs (Decidable (_ ∧ _ ∧ _))

instance (s : LivenessState I K A D) (a : LivenessAction I K A D) : Decidable (s.Keeps a) :=
  match a with
  | .tick _ | .dedupe _ => .isTrue trivial
  | .upsert _ => inferInstanceAs (Decidable (∀ n ∈ s.stores.nodes, _ → _))
  | .replace _ _ _ => inferInstanceAs (Decidable ((∀ n ∈ s.stores.nodes, _ → _) ∧ ∀ n ∈ s.stores.nodes, _ → _ → _))

end System

/-! ## The window of a key -/

section Status

variable {I K A D : Type} [DecidableEq K]

/-- The id of a record and whether its window is unset. -/
def EntityRecord.window (r : EntityRecord I K A D) : I × Bool := (r.id, r.validUntil.isNone)

/-- What stands under a key. -/
def status (l : List (EntityRecord I K A D)) (k : K) : Option (I × Bool) :=
  (KeyedMerge.get EntityRecord.key l k).map EntityRecord.window

/-- No window of the store ends in the future. -/
def Stamped (now : ℕ) (l : List (EntityRecord I K A D)) : Prop :=
  ∀ r ∈ l, ∀ t, r.validUntil = some t → t ≤ now

theorem status_of_mem {l : List (EntityRecord I K A D)} (hn : (l.map EntityRecord.key).Nodup)
    {r : EntityRecord I K A D} (hr : r ∈ l) : status l r.key = some r.window :=
  congrArg (Option.map EntityRecord.window) ((KeyedMerge.mem_iff_get hn).mp hr)

theorem exists_of_status {l : List (EntityRecord I K A D)} {k : K} {w : I × Bool} (h : status l k = some w) :
    ∃ r ∈ l, r.key = k ∧ r.window = w := by
  obtain ⟨r, hget, hw⟩ := Option.map_eq_some_iff.mp h
  exact ⟨r, KeyedMerge.mem_of_get hget, KeyedMerge.key_of_get hget, hw⟩

/-- An entity is listed while its window is unset. -/
theorem mem_listedKeys_iff {l : List (EntityRecord I K A D)} (hn : (l.map EntityRecord.key).Nodup) {now : ℕ}
    (hstamped : Stamped now l) {k : K} : k ∈ listedKeys now l ↔ ∃ i, status l k = some (i, true) := by
  unfold listedKeys listEntities
  constructor
  · intro h
    obtain ⟨r, hr, rfl⟩ := List.mem_map.mp h
    obtain ⟨hmem, hlive⟩ := List.mem_filter.mp hr
    refine ⟨r.id, ?_⟩
    rw [status_of_mem hn hmem]
    unfold EntityRecord.live at hlive
    unfold EntityRecord.window
    cases ht : r.validUntil with
    | none => rfl
    | some t =>
        rw [ht] at hlive
        exact absurd (of_decide_eq_true hlive) (Nat.not_lt.mpr (hstamped r hmem t ht))
  · rintro ⟨i, hstatus⟩
    obtain ⟨r, hmem, rfl, hw⟩ := exists_of_status hstatus
    have hnone : r.validUntil = none := Option.isNone_iff_eq_none.mp (congrArg Prod.snd hw)
    refine List.mem_map.mpr ⟨r, List.mem_filter.mpr ⟨hmem, ?_⟩, rfl⟩
    unfold EntityRecord.live
    rw [hnone]

/-- A change of records, as far as windows are concerned. -/
theorem status_map {f : EntityRecord I K A D → EntityRecord I K A D} {g : I × Bool → I × Bool}
    (hkey : ∀ r, (f r).key = r.key) (hwindow : ∀ r, (f r).window = g r.window)
    (l : List (EntityRecord I K A D)) (k : K) : status (l.map f) k = (status l k).map g := by
  unfold status
  rw [KeyedMerge.get_map hkey, Option.map_map, Option.map_map]
  congr 1
  funext r
  exact hwindow r

end Status

/-! ## Retirement -/

section Retire

variable {I K A D : Type} [DecidableEq I]

/-- Retirement by id, of either kind, on a window. -/
def retireWindow (ids : List I) (w : I × Bool) : I × Bool := (w.1, w.2 && decide (w.1 ∉ ids))

theorem retireWindow_eq {ids : List I} {w : I × Bool} (h : w.1 ∈ ids → w.2 = false) : retireWindow ids w = w := by
  unfold retireWindow
  by_cases hid : w.1 ∈ ids
  · rw [h hid, Bool.false_and, ← h hid]
  · simp [hid]

theorem window_retireRecord (now : ℕ) (ids : List I) (n : EntityRecord I K A D) :
    (retireRecord now ids n).window = retireWindow ids n.window := by
  unfold retireRecord retireWindow EntityRecord.window
  by_cases h : n.id ∈ ids
  · simp [h]
  · simp [h]

theorem window_softRetireRecord (now : ℕ) (ids : List I) (r : EntityRecord I K A D) :
    (softRetireRecord now ids r).window = retireWindow ids r.window := by
  unfold softRetireRecord retireWindow EntityRecord.window
  by_cases h : r.id ∈ ids
  · by_cases hv : r.validUntil = none
    · simp [h, hv]
    · simp [h, hv, Option.isSome_iff_ne_none]
  · simp [h]

theorem key_retireRecord (now : ℕ) (ids : List I) (n : EntityRecord I K A D) :
    (retireRecord now ids n).key = n.key := by
  unfold retireRecord
  split
  · rfl
  · rfl

theorem key_softRetireRecord (now : ℕ) (ids : List I) (r : EntityRecord I K A D) :
    (softRetireRecord now ids r).key = r.key := by
  unfold softRetireRecord
  split
  · rfl
  · rfl

theorem validUntil_retireRecord (now : ℕ) (ids : List I) (n : EntityRecord I K A D) :
    (retireRecord now ids n).validUntil = some now ∨ (retireRecord now ids n).validUntil = n.validUntil := by
  unfold retireRecord
  split
  · exact .inl rfl
  · exact .inr rfl

theorem validUntil_softRetireRecord (now : ℕ) (ids : List I) (r : EntityRecord I K A D) :
    (softRetireRecord now ids r).validUntil = some now ∨ (softRetireRecord now ids r).validUntil = r.validUntil := by
  unfold softRetireRecord
  split
  · exact .inl rfl
  · exact .inr rfl

omit [DecidableEq I] in
theorem Stamped.map {now : ℕ} {l : List (EntityRecord I K A D)} (h : Stamped now l)
    {f : EntityRecord I K A D → EntityRecord I K A D}
    (hf : ∀ r, (f r).validUntil = some now ∨ (f r).validUntil = r.validUntil) : Stamped now (l.map f) := by
  intro r hr t ht
  obtain ⟨n, hn, rfl⟩ := List.mem_map.mp hr
  rcases hf n with hnow | hsame
  · rw [hnow] at ht
    exact le_of_eq (Option.some.inj ht).symm
  · exact h n hn t (hsame.symm.trans ht)

theorem key_changeSources (ids : List I) (f : List D → List D) (n : EntityRecord I K A D) :
    (changeSources ids f n).key = n.key := by
  unfold changeSources
  split
  · rfl
  · rfl

theorem validUntil_changeSources (ids : List I) (f : List D → List D) (n : EntityRecord I K A D) :
    (changeSources ids f n).validUntil = n.validUntil := by
  unfold changeSources
  split
  · rfl
  · rfl

theorem window_changeSources (ids : List I) (f : List D → List D) (n : EntityRecord I K A D) :
    (changeSources ids f n).window = n.window := by
  unfold changeSources
  split
  · rfl
  · rfl

theorem status_changeSources [DecidableEq K] (ids : List I) (f : List D → List D)
    (l : List (EntityRecord I K A D)) (k : K) : status (l.map (changeSources ids f)) k = status l k := by
  have hmap := @status_map _ _ _ _ _ _ id (key_changeSources ids f) (window_changeSources ids f) l k
  rwa [Option.map_id_apply] at hmap

end Retire

/-! ## Upserts -/

section Upsert

variable {I K A D : Type} [DecidableEq K] [DecidableEq D] [DecidableEq A] [EmptyCollection A]
variable {s : SplitEntities I K A D} {entities : List (EntityRecord I K A D)}

/-- A mention reopens the window of its row. -/
theorem SplitEntities.status_upsertRows (hunset : ∀ e ∈ entities, e.validUntil = none) (k : K) :
    status (s.upsertEntitiesBatch entities).rows k =
      if k ∈ entities.map EntityRecord.key then
        (idAt (s.upsertEntitiesBatch entities).rows k).map fun i => (i, true)
      else status s.rows k := by
  show status (upsertRows s.rows entities) k = if _ then (idAt (upsertRows s.rows entities) k).map _ else _
  split
  case isTrue h =>
    obtain ⟨e, he, hek⟩ := List.mem_map.mp h
    have hget : ∃ r, KeyedMerge.get EntityRecord.key (upsertRows s.rows entities) k = some r ∧
        r.validUntil = none := by
      apply KeyedMerge.get_mergeAll_of_mem
      · exact fun e r => rfl
      · exact fun e => rfl
      · exact ⟨e, he, hek⟩
      · exact fun e he r => hunset e he
      · exact fun e he => hunset e he
    obtain ⟨r, hr, hnone⟩ := hget
    unfold status idAt
    rw [hr]
    show some (r.id, r.validUntil.isNone) = some (r.id, true)
    rw [hnone]
    rfl
  case isFalse h =>
    unfold status upsertRows
    congr 1
    apply KeyedMerge.get_mergeAll_of_notMem
    · exact fun e r => rfl
    · exact fun e => rfl
    · exact fun e he heq => h (List.mem_map.mpr ⟨e, he, heq⟩)

/-- **A mention leaves the window of its node as it is.** -/
theorem SplitEntities.status_upsertNodes (hunset : ∀ e ∈ entities, e.validUntil = none) (k : K) :
    status (s.upsertEntitiesBatch entities).nodes k =
      (status s.nodes k).or (if k ∈ entities.map EntityRecord.key then
        (idAt (s.upsertEntitiesBatch entities).rows k).map fun i => (i, true) else none) := by
  have hmerge : status (s.upsertEntitiesBatch entities).nodes k = (status s.nodes k).or
      (((syncIds (upsertRows s.rows entities) entities).find? fun e => decide (e.key = k)).map
        EntityRecord.window) := by
    apply KeyedMerge.map_get_mergeAll
    · exact fun e n => rfl
    · exact fun e => rfl
    · exact fun e n => rfl
  rw [hmerge]
  congr 1
  by_cases hk : k ∈ entities.map EntityRecord.key
  · have hrow : (idAt (upsertRows s.rows entities) k).isSome = true := idAt_upsertRows_isSome hk
    have hids : ((syncIds (upsertRows s.rows entities) entities).find? fun e => decide (e.key = k)).map
        EntityRecord.id = _ := find?_syncIds hrow
    rw [if_pos hk] at hids ⊢
    show _ = (idAt (upsertRows s.rows entities) k).map _
    rw [← hids, Option.map_map]
    apply Option.map_congr
    intro e he
    obtain ⟨e₀, he₀, rfl⟩ := List.mem_map.mp (List.mem_of_find?_eq_some he)
    show (_, e₀.validUntil.isNone) = (_, true)
    rw [hunset e₀ he₀]
    rfl
  · rw [if_neg hk, Option.map_eq_none_iff, ← Option.not_isSome_iff_eq_none, find?_isSome_iff]
    unfold syncIds
    rw [List.map_map]
    exact hk

theorem stamped_upsertRows {now : ℕ} (hunset : ∀ e ∈ entities, e.validUntil = none) (h : Stamped now s.rows) :
    Stamped now (s.upsertEntitiesBatch entities).rows := by
  apply KeyedMerge.forall_mem_mergeAll
  · intro e he r _ t ht
    exact absurd ((hunset e he).symm.trans ht) (by simp)
  · intro e he t ht
    exact absurd ((hunset e he).symm.trans ht) (by simp)
  · exact h

theorem stamped_upsertNodes {now : ℕ} (hunset : ∀ e ∈ entities, e.validUntil = none) (h : Stamped now s.nodes) :
    Stamped now (s.upsertEntitiesBatch entities).nodes := by
  apply KeyedMerge.forall_mem_mergeAll
  · exact fun e he n hn => hn
  · intro e he t ht
    obtain ⟨e₀, he₀, rfl⟩ := List.mem_map.mp he
    exact absurd ((hunset e₀ he₀).symm.trans ht) (by simp)
  · exact h

end Upsert

/-! ## The plan of a replacement -/

section Plan

variable {I K A D : Type} [DecidableEq I] [DecidableEq K] [DecidableEq D]
variable {s : SplitEntities I K A D} {entities : List (EntityRecord I K A D)} {oldDoc newDoc : D}

omit [DecidableEq I] [DecidableEq K] [DecidableEq D] in
theorem map_key_extracted (l : List (EntityRecord I K A D)) :
    (l.map EntityRecord.extracted).map NewEntity.key = l.map EntityRecord.key := by
  rw [List.map_map]
  rfl

/-- The ids of the nodes that are retired. -/
theorem mem_entityRetirement_iff {i : I} :
    i ∈ (s.planReplace oldDoc newDoc entities).entityRetirement ↔
      ∃ m ∈ s.nodes, orphanedBy oldDoc entities m ∧ m.id = i := by
  unfold SplitEntities.planReplace Khora.planReplace fetchEntities
  simp only [map_key_extracted, List.mem_map, List.mem_filter, Bool.and_eq_true, decide_eq_true_eq]
  constructor
  · rintro ⟨n, ⟨⟨⟨m, hm, rfl⟩, hold⟩, hkey, hlen⟩, rfl⟩
    exact ⟨m, hm, ⟨hold, hlen, fun h => hkey (List.mem_map.mp h)⟩, rfl⟩
  · rintro ⟨m, hm, ⟨hold, hlen, hkey⟩, rfl⟩
    exact ⟨m.node, ⟨⟨⟨m, hm, rfl⟩, hold⟩, fun h => hkey (List.mem_map.mpr h), hlen⟩, rfl⟩

/-- The net-new entities are those of which no node lists the old document. -/
theorem mem_netNewEntities_iff {e : EntityRecord I K A D} :
    e ∈ s.netNewEntities oldDoc newDoc entities ↔
      e ∈ entities ∧ ∀ n ∈ s.nodes, n.key = e.key → oldDoc ∉ n.sources := by
  unfold SplitEntities.netNewEntities SplitEntities.planReplace Khora.planReplace fetchEntities
  simp only [map_key_extracted, List.mem_map, List.mem_filter, decide_eq_true_eq]
  apply and_congr_right
  intro he
  constructor
  · rintro ⟨x, ⟨⟨e', he', rfl⟩, hsurvivor⟩, hx⟩ n hn hkey hold
    exact hsurvivor ⟨n.node, ⟨⟨⟨n, hn, rfl⟩, hold⟩, e, he, hkey.symm⟩, hkey.trans hx.symm⟩
  · intro h
    refine ⟨e.extracted, ⟨⟨e, he, rfl⟩, ?_⟩, rfl⟩
    rintro ⟨m, ⟨⟨⟨n, hn, rfl⟩, hold⟩, -⟩, hkey⟩
    exact h n hn hkey hold

/-- The verbs that find nodes by id retire some and leave the other windows alone. -/
theorem status_replacedNodes (now : ℕ) (k : K) :
    status (s.replacedNodes now oldDoc newDoc entities) k =
      (status s.nodes k).map (retireWindow (s.planReplace oldDoc newDoc entities).entityRetirement) := by
  unfold SplitEntities.replacedNodes remapRecord stripRecord
  rw [status_changeSources, status_changeSources]
  exact status_map (key_retireRecord _ _) (window_retireRecord _ _) s.nodes k

/-- A replacement that retires no live node leaves the windows of all nodes alone. -/
theorem status_replacedNodes_of_retired {s : SplitEntities I K A D} {oldDoc newDoc : D}
    {entities : List (EntityRecord I K A D)}
    (hretired : ∀ n ∈ s.nodes, (∃ m ∈ s.nodes, orphanedBy oldDoc entities m ∧ m.id = n.id) →
      n.validUntil ≠ none) (now : ℕ) (k : K) :
    status (s.replacedNodes now oldDoc newDoc entities) k = status s.nodes k := by
  rw [status_replacedNodes]
  cases hstatus : status s.nodes k with
  | none => rfl
  | some w =>
      obtain ⟨n, hn, -, rfl⟩ := exists_of_status hstatus
      refine congrArg some (retireWindow_eq fun hid => ?_)
      have hset := hretired n hn (mem_entityRetirement_iff.mp hid)
      exact Option.isNone_eq_false_iff.mpr (Option.isSome_iff_ne_none.mpr hset)

theorem stamped_replacedNodes {now : ℕ} (h : Stamped now s.nodes) :
    Stamped now (s.replacedNodes now oldDoc newDoc entities) := by
  unfold SplitEntities.replacedNodes remapRecord stripRecord
  apply Stamped.map _ fun n => .inr (validUntil_changeSources _ _ n)
  apply Stamped.map _ fun n => .inr (validUntil_changeSources _ _ n)
  exact h.map (validUntil_retireRecord now _)

theorem map_key_replacedNodes (now : ℕ) :
    (s.replacedNodes now oldDoc newDoc entities).map EntityRecord.key = s.nodes.map EntityRecord.key := by
  unfold SplitEntities.replacedNodes remapRecord stripRecord
  rw [KeyedMerge.map_key_map (key_changeSources _ _), KeyedMerge.map_key_map (key_changeSources _ _),
    KeyedMerge.map_key_map (key_retireRecord _ _)]

end Plan

/-! ## Runs -/

section Runs

variable {I K A D : Type}

/-- What every step keeps. -/
structure LivenessState.Kept (s : LivenessState I K A D) : Prop where
  row_keys : (s.stores.rows.map EntityRecord.key).Nodup
  node_keys : (s.stores.nodes.map EntityRecord.key).Nodup
  rows_stamped : Stamped s.clock s.stores.rows
  nodes_stamped : Stamped s.clock s.stores.nodes

variable [DecidableEq K]

/-- The stores hold the same ids and the same windows, key by key. -/
structure LivenessState.Paired (s : LivenessState I K A D) : Prop where
  paired : ∀ k, status s.stores.rows k = status s.stores.nodes k
  mentioned : ∀ k ∈ s.mentioned, ∃ i, status s.stores.nodes k = some (i, true)

structure LivenessState.InStep (s : LivenessState I K A D) : Prop extends s.Kept, s.Paired

theorem LivenessState.InStep.agrees {s : LivenessState I K A D} (h : s.InStep) : s.Agrees := by
  have hsame : ∀ k, k ∈ listedKeys s.clock s.stores.rows ↔ k ∈ listedKeys s.clock s.stores.nodes := by
    intro k
    rw [mem_listedKeys_iff h.row_keys h.rows_stamped, mem_listedKeys_iff h.node_keys h.nodes_stamped, h.paired k]
  refine ⟨hsame, fun k hk => ?_⟩
  have hlisted := (mem_listedKeys_iff h.node_keys h.nodes_stamped).mpr (h.mentioned k hk)
  exact ⟨(hsame k).mpr hlisted, hlisted⟩

omit [DecidableEq K] in
theorem window_of_set {n : EntityRecord I K A D} (h : n.validUntil ≠ none) : n.window = (n.id, false) := by
  unfold EntityRecord.window
  rw [Option.isNone_eq_false_iff.mpr (Option.isSome_iff_ne_none.mpr h)]

/-- A row with an open window and a node with a closed one. -/
theorem LivenessState.Kept.not_agrees {s : LivenessState I K A D} (h : s.Kept) {k : K} {i j : I}
    (hrow : status s.stores.rows k = some (i, true)) (hnode : status s.stores.nodes k = some (j, false)) :
    ¬s.Agrees := by
  intro hagrees
  have hlisted := (hagrees.1 k).mp ((mem_listedKeys_iff h.row_keys h.rows_stamped).mpr ⟨i, hrow⟩)
  obtain ⟨j', hj'⟩ := (mem_listedKeys_iff h.node_keys h.nodes_stamped).mp hlisted
  exact Bool.noConfusion (congrArg Prod.snd (Option.some.inj (hnode.symm.trans hj')))

variable [DecidableEq D] [DecidableEq A] [EmptyCollection A]

omit [DecidableEq D] [DecidableEq A] [EmptyCollection A] in
theorem status_open {l : List (EntityRecord I K A D)} {k : K}
    (hopen : ∀ r ∈ l, r.key = k → r.validUntil = none) (w : I × Bool) (h : status l k = some w) : w.2 = true := by
  obtain ⟨r, hr, hkey, rfl⟩ := exists_of_status h
  exact Option.isNone_iff_eq_none.mpr (hopen r hr hkey)

/-- A batch of entities whose nodes have open windows keeps the stores paired. -/
theorem SplitEntities.paired_upsert {s : SplitEntities I K A D} {entities : List (EntityRecord I K A D)}
    (hunset : ∀ e ∈ entities, e.validUntil = none) (hpaired : ∀ k, status s.rows k = status s.nodes k)
    (hopen : ∀ k ∈ entities.map EntityRecord.key, ∀ w, status s.nodes k = some w → w.2 = true) (k : K) :
    status (s.upsertEntitiesBatch entities).rows k = status (s.upsertEntitiesBatch entities).nodes k := by
  rw [SplitEntities.status_upsertRows hunset, SplitEntities.status_upsertNodes hunset]
  by_cases hk : k ∈ entities.map EntityRecord.key
  · rw [if_pos hk, if_pos hk]
    cases hnode : status s.nodes k with
    | none => rfl
    | some w =>
        -- the row of this key keeps its id, which is that of the node
        have hrow : idAt s.rows k = some w.1 := by
          obtain ⟨r, hr, rfl⟩ := Option.map_eq_some_iff.mp ((hpaired k).trans hnode)
          exact congrArg (Option.map EntityRecord.id) hr
        show (idAt (upsertRows s.rows entities) k).map _ = some w
        rw [idAt_upsertRows, hrow]
        show some (w.1, true) = some w
        rw [← hopen k hk w hnode]
  · rw [if_neg hk, if_neg hk, Option.or_none]
    exact hpaired k

theorem SplitEntities.status_upserted {s : SplitEntities I K A D} {entities : List (EntityRecord I K A D)}
    (hunset : ∀ e ∈ entities, e.validUntil = none) {k : K} (hk : k ∈ entities.map EntityRecord.key) :
    ∃ i, status (s.upsertEntitiesBatch entities).rows k = some (i, true) := by
  have hrow : (idAt (upsertRows s.rows entities) k).isSome = true := idAt_upsertRows_isSome hk
  obtain ⟨i, hi⟩ := Option.isSome_iff_exists.mp hrow
  refine ⟨i, ?_⟩
  rw [SplitEntities.status_upsertRows hunset, if_pos hk]
  exact congrArg _ hi

variable [DecidableEq I]

theorem LivenessState.Kept.step {s : LivenessState I K A D} (h : s.Kept) {a : LivenessAction I K A D}
    (hunset : a.unset) : (s.step a).Kept := by
  cases a with
  | tick elapsed =>
      exact ⟨h.row_keys, h.node_keys, fun r hr t ht => (h.rows_stamped r hr t ht).trans (Nat.le_add_right _ _),
        fun n hn t ht => (h.nodes_stamped n hn t ht).trans (Nat.le_add_right _ _)⟩
  | upsert entities =>
      exact ⟨nodup_upsertRows h.row_keys _, nodup_upsertNodes h.node_keys _,
        stamped_upsertRows hunset h.rows_stamped, stamped_upsertNodes hunset h.nodes_stamped⟩
  | replace oldDoc newDoc entities =>
      have hnew : ∀ e ∈ s.stores.netNewEntities oldDoc newDoc entities, e.validUntil = none :=
        fun e he => hunset e (mem_netNewEntities_iff.mp he).1
      have hkeys : ((s.stores.replacedNodes s.clock oldDoc newDoc entities).map EntityRecord.key).Nodup := by
        rw [map_key_replacedNodes]
        exact h.node_keys
      exact ⟨nodup_upsertRows h.row_keys _, nodup_upsertNodes hkeys _,
        stamped_upsertRows hnew h.rows_stamped, stamped_upsertNodes hnew (stamped_replacedNodes h.nodes_stamped)⟩
  | dedupe absorbed =>
      refine ⟨?_, ?_, h.rows_stamped.map (validUntil_softRetireRecord _ _),
        h.nodes_stamped.map (validUntil_softRetireRecord _ _)⟩
      · show ((s.stores.rows.map (softRetireRecord s.clock absorbed)).map EntityRecord.key).Nodup
        rw [KeyedMerge.map_key_map (key_softRetireRecord _ _)]
        exact h.row_keys
      · show ((s.stores.nodes.map (softRetireRecord s.clock absorbed)).map EntityRecord.key).Nodup
        rw [KeyedMerge.map_key_map (key_softRetireRecord _ _)]
        exact h.node_keys

theorem LivenessState.InStep.replace {s : LivenessState I K A D} (h : s.InStep) {oldDoc newDoc : D}
    {entities : List (EntityRecord I K A D)} (hunset : ∀ e ∈ entities, e.validUntil = none)
    (hguard : s.Keeps (.replace oldDoc newDoc entities)) :
    (s.step (.replace oldDoc newDoc entities)).Paired := by
  have hnew : ∀ e ∈ s.stores.netNewEntities oldDoc newDoc entities, e.validUntil = none :=
    fun e he => hunset e (mem_netNewEntities_iff.mp he).1
  have hnodes : ∀ k, status (s.stores.replacedNodes s.clock oldDoc newDoc entities) k = status s.stores.nodes k :=
    status_replacedNodes_of_retired hguard.1 s.clock
  have hopen : ∀ k ∈ (s.stores.netNewEntities oldDoc newDoc entities).map EntityRecord.key,
      ∀ w, status (s.stores.replacedNodes s.clock oldDoc newDoc entities) k = some w → w.2 = true := by
    intro k hk w hw
    rw [hnodes] at hw
    obtain ⟨e, he, rfl⟩ := List.mem_map.mp hk
    obtain ⟨hmem, hunlisted⟩ := mem_netNewEntities_iff.mp he
    apply status_open _ w hw
    intro n hn hkey
    exact hguard.2 n hn (hkey ▸ List.mem_map_of_mem hmem) (hunlisted n hn hkey)
  have hpaired : ∀ k, status (s.step (.replace oldDoc newDoc entities)).stores.rows k =
      status (s.step (.replace oldDoc newDoc entities)).stores.nodes k :=
    SplitEntities.paired_upsert hnew (fun k => (h.paired k).trans (hnodes k).symm) hopen
  refine ⟨hpaired, fun k hk => ?_⟩
  rw [← hpaired k]
  by_cases hnone : s.stores.netNewEntities oldDoc newDoc entities = []
  · have hkept : k ∈ s.mentioned := by
      simp only [LivenessState.step, if_pos hnone] at hk
      exact List.mem_of_mem_filter hk
    have hrows : (s.step (.replace oldDoc newDoc entities)).stores.rows = s.stores.rows := by
      show upsertRows s.stores.rows (s.stores.netNewEntities oldDoc newDoc entities) = s.stores.rows
      rw [hnone]
      rfl
    rw [hrows, h.paired]
    exact h.mentioned k hkept
  · simp only [LivenessState.step, if_neg hnone] at hk
    exact SplitEntities.status_upserted hnew hk

theorem LivenessState.InStep.dedupe {s : LivenessState I K A D} (h : s.InStep) (absorbed : List I) :
    (s.step (.dedupe absorbed)).Paired := by
  have hretire : ∀ (l : List (EntityRecord I K A D)) (k : K),
      status (l.map (softRetireRecord s.clock absorbed)) k = (status l k).map (retireWindow absorbed) :=
    status_map (key_softRetireRecord _ _) (window_softRetireRecord _ _)
  constructor
  · intro k
    show status (s.stores.rows.map _) k = status (s.stores.nodes.map _) k
    rw [hretire, hretire, h.paired]
  · intro k hk
    obtain ⟨hmem, hkept⟩ := List.mem_filter.mp hk
    obtain ⟨i, hi⟩ := h.mentioned k hmem
    obtain ⟨n, hn, hkey, hw⟩ := exists_of_status hi
    have hid : i ∉ absorbed := by
      intro hin
      have hnid : n.id = i := congrArg Prod.fst hw
      apply of_decide_eq_true hkept
      rw [← hkey]
      exact List.mem_map_of_mem (List.mem_filter.mpr ⟨hn, decide_eq_true (hnid ▸ hin)⟩)
    refine ⟨i, ?_⟩
    show status (s.stores.nodes.map _) k = _
    rw [hretire, hi]
    exact congrArg some (retireWindow_eq fun hin => absurd hin hid)

theorem LivenessState.InStep.step {s : LivenessState I K A D} (h : s.InStep) {a : LivenessAction I K A D}
    (hunset : a.unset) (hguard : s.Keeps a) : (s.step a).InStep := by
  refine ⟨h.toKept.step hunset, ?_⟩
  cases a with
  | tick elapsed => exact ⟨h.paired, h.mentioned⟩
  | upsert entities =>
      have hpaired : ∀ k, status (s.stores.upsertEntitiesBatch entities).rows k =
          status (s.stores.upsertEntitiesBatch entities).nodes k :=
        SplitEntities.paired_upsert hunset h.paired fun k hk =>
          status_open fun n hn hkey => hguard n hn (hkey ▸ hk)
      refine ⟨hpaired, fun k hk => ?_⟩
      show ∃ i, status (s.stores.upsertEntitiesBatch entities).nodes k = _
      rw [← hpaired k]
      exact SplitEntities.status_upserted hunset hk
  | replace oldDoc newDoc entities => exact h.replace hunset hguard
  | dedupe absorbed => exact h.dedupe absorbed

/-- A mention of a retired entity, and a retirement in the graph alone, split the stores. -/
theorem LivenessState.InStep.not_agrees_step {s : LivenessState I K A D} (h : s.InStep)
    {a : LivenessAction I K A D} (hunset : a.unset) (hguard : ¬s.Keeps a) : ¬(s.step a).Agrees := by
  have hkept := h.toKept.step hunset
  cases a with
  | tick elapsed => exact absurd trivial hguard
  | dedupe absorbed => exact absurd trivial hguard
  | upsert entities =>
      simp only [LivenessState.Keeps, not_forall] at hguard
      obtain ⟨n, hn, hkey, hset⟩ := hguard
      obtain ⟨i, hrow⟩ := SplitEntities.status_upserted hunset hkey
      apply hkept.not_agrees hrow
      show status (s.stores.upsertEntitiesBatch entities).nodes n.key = some (n.id, false)
      rw [SplitEntities.status_upsertNodes hunset, status_of_mem h.node_keys hn]
      exact congrArg some (window_of_set hset)
  | replace oldDoc newDoc entities =>
      have hnew : ∀ e ∈ s.stores.netNewEntities oldDoc newDoc entities, e.validUntil = none :=
        fun e he => hunset e (mem_netNewEntities_iff.mp he).1
      -- a node that the plan retires, or whose window was set before
      have hnode : ∀ n ∈ s.stores.nodes, retireWindow (s.stores.planReplace oldDoc newDoc entities).entityRetirement
          n.window = (n.id, false) →
          status (s.step (.replace oldDoc newDoc entities)).stores.nodes n.key = some (n.id, false) := by
        intro n hn hretire
        show status (SplitEntities.upsertEntitiesBatch _ _).nodes n.key = _
        rw [SplitEntities.status_upsertNodes hnew]
        show (status (s.stores.replacedNodes _ _ _ _) _).or _ = _
        rw [status_replacedNodes, status_of_mem h.node_keys hn]
        exact congrArg some hretire
      rcases not_and_or.mp hguard with hlive | hmention
      · simp only [not_forall] at hlive
        obtain ⟨n, hn, horphan, hnone⟩ := hlive
        have hopen : n.validUntil = none := not_not.mp hnone
        have hwindow : n.window = (n.id, true) := by
          unfold EntityRecord.window
          rw [hopen]
          rfl
        have hrow : ∃ i, status (s.step (.replace oldDoc newDoc entities)).stores.rows n.key = some (i, true) := by
          by_cases hkey : n.key ∈ (s.stores.netNewEntities oldDoc newDoc entities).map EntityRecord.key
          · exact SplitEntities.status_upserted hnew hkey
          · refine ⟨n.id, ?_⟩
            show status (SplitEntities.upsertEntitiesBatch _ _).rows n.key = _
            rw [SplitEntities.status_upsertRows hnew, if_neg hkey, ← hwindow, ← status_of_mem h.node_keys hn]
            exact h.paired n.key
        obtain ⟨i, hi⟩ := hrow
        apply hkept.not_agrees hi (hnode n hn _)
        unfold retireWindow
        rw [hwindow, decide_eq_false (not_not.mpr (mem_entityRetirement_iff.mpr horphan))]
        rfl
      · simp only [not_forall] at hmention
        obtain ⟨n, hn, hkey, hold, hset⟩ := hmention
        obtain ⟨e, he, heq⟩ := List.mem_map.mp hkey
        have hmem : e ∈ s.stores.netNewEntities oldDoc newDoc entities := by
          refine mem_netNewEntities_iff.mpr ⟨he, fun m hm hm' => ?_⟩
          rw [List.inj_on_of_nodup_map h.node_keys hm hn (hm'.trans heq)]
          exact hold
        obtain ⟨i, hi⟩ := SplitEntities.status_upserted hnew (List.mem_map_of_mem hmem)
        rw [heq] at hi
        apply hkept.not_agrees hi (hnode n hn _)
        unfold retireWindow
        rw [window_of_set hset]
        rfl

omit [DecidableEq D] [DecidableEq A] [EmptyCollection A] [DecidableEq I] in
theorem LivenessState.inStep_start : (LivenessState.start : LivenessState I K A D).InStep where
  row_keys := List.nodup_nil
  node_keys := List.nodup_nil
  rows_stamped := fun _ hr => absurd hr List.not_mem_nil
  nodes_stamped := fun _ hn => absurd hn List.not_mem_nil
  paired := fun _ => rfl
  mentioned := fun _ hk => absurd hk List.not_mem_nil

/-- **The stores agree on the live entities in every state of a run**, and list those that the last
upsert mentioned, if and only if no step mentions an entity whose node is retired and no replacement
retires a live node. -/
theorem live_agree_iff (actions : List (LivenessAction I K A D)) (hunset : ∀ a ∈ actions, a.unset) :
    Runs.Always LivenessState.step LivenessState.Agrees .start actions ↔
      Runs.Guarded LivenessState.step LivenessState.Keeps .start actions :=
  Runs.always_iff_guarded (fun _ _ ha h hg => LivenessState.InStep.step h ha hg) (fun _ h => h.agrees)
    (fun _ _ ha h hg => LivenessState.InStep.not_agrees_step h ha hg) hunset LivenessState.inStep_start

end Runs

/-- An extracted entity. -/
def mentionOf (id key doc : ℕ) : EntityRecord ℕ ℕ (List ℕ) ℕ := ⟨id, key, [1], [doc], none⟩

/-- Two entities of one document: dedupe absorbs the second, and the document is replaced by one
that has the first alone. -/
def quietRun : List (LivenessAction ℕ ℕ (List ℕ) ℕ) :=
  [.upsert [mentionOf 10 1 5, mentionOf 11 2 5], .dedupe [11], .tick 3, .replace 5 6 [mentionOf 12 1 6],
    .upsert [mentionOf 13 1 7]]

theorem quietRun_agrees : (∀ a ∈ quietRun, a.unset) ∧
    Runs.Guarded LivenessState.step LivenessState.Keeps .start quietRun ∧
    Runs.Always LivenessState.step LivenessState.Agrees .start quietRun :=
  ⟨by decide, by decide, (live_agree_iff quietRun (by decide)).mpr (by decide)⟩

/-- An entity that dedupe absorbed, and a document that mentions it again. -/
def rementionRun : List (LivenessAction ℕ ℕ (List ℕ) ℕ) :=
  [.upsert [mentionOf 10 1 5], .dedupe [10], .upsert [mentionOf 11 1 6]]

/-- **A second mention brings back the row and not the node.** -/
theorem remention_splits : (∀ a ∈ rementionRun, a.unset) ∧
    ¬Runs.Always LivenessState.step LivenessState.Agrees .start rementionRun := by
  refine ⟨by decide, fun h => ?_⟩
  exact absurd (h.2.2.1.1 1) (by decide)

end Khora
