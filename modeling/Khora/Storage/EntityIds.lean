import Khora.Engine.ForgetCascade
import Khora.Storage.EntityLiveness

/-!
# One id for an entity

Each store keeps the id under which it knows a key.  An upsert writes the row and then the node,
under the id of the row; a deletion removes the node and then the row; the forget cascade removes
the rows of its orphans and then their nodes.  The second write of a call may fail.

* `settled_same_id` — in every run in which no call mentions an entity that has a node and no row, an
  entity that an upsert has written to both stores, and no deletion has touched since, has one id.
* `strandedNode_splits` — a node that a forget has left behind and a document mentions again.
-/

namespace Khora

/-! ## Calls -/

section Calls

variable {I K A D : Type}

/-- What the forget cascade reads of an entity. -/
def EntityRecord.extract (r : EntityRecord I K A D) : Extracted I D :=
  ⟨r.id, [], r.sources, r.validUntil⟩

variable [DecidableEq I]

def removeIds (ids : List I) (l : List (EntityRecord I K A D)) : List (EntityRecord I K A D) :=
  l.filter fun r => decide (r.id ∉ ids)

/-- `StorageCoordinator.delete_entity` -/
def SplitEntities.deleteEntity (s : SplitEntities I K A D) (id : I) (vectorFails : Bool) : SplitEntities I K A D :=
  ⟨if vectorFails then s.rows else removeIds [id] s.rows, removeIds [id] s.nodes⟩

variable [DecidableEq D]

/-- The ids of the rows that the cascade lists, and that are orphans or survivors. -/
def SplitEntities.cascadeIds (s : SplitEntities I K A D) (now : ℕ) (p : Extracted I D → Bool) : List I :=
  (((listEntities now s.rows).take scanLimit).filter fun r => p r.extract).map EntityRecord.id

/-- The writes of `cascade_forget_extraction` to entities. -/
def SplitEntities.cascadeWrites (s : SplitEntities I K A D) (doc : D) (now : ℕ) :
    List (SplitEntities I K A D → SplitEntities I K A D) :=
  let orphans := s.cascadeIds now (isOrphan doc)
  let survivors := s.cascadeIds now (isSurvivor doc)
  [fun t => { t with rows := removeIds orphans t.rows },
    fun t => { t with nodes := removeIds orphans t.nodes },
    fun t => { t with rows := t.rows.map (changeSources survivors (stripSource doc)) },
    fun t => { t with nodes := t.nodes.map (changeSources survivors (stripSource doc)) }]

/-- The cascade with the vector store as primary, which stops after some of its writes. -/
def SplitEntities.forget (s : SplitEntities I K A D) (doc : D) (now writes : ℕ) : SplitEntities I K A D :=
  ((s.cascadeWrites doc now).take writes).foldl (fun t write => write t) s

variable [DecidableEq K] [DecidableEq A] [EmptyCollection A]

/-- `upsert_entities_batch` of which the graph part writes some of the nodes. -/
def SplitEntities.upsertPartly (s : SplitEntities I K A D) (entities : List (EntityRecord I K A D))
    (written : EntityRecord I K A D → Bool) : SplitEntities I K A D :=
  let rows := upsertRows s.rows entities
  ⟨rows, upsertNodes s.nodes ((syncIds rows entities).filter written)⟩

end Calls

/-- The stores, and the keys that an upsert wrote to both and no deletion has touched since. -/
structure IdentityState (I K A D : Type) where
  stores : SplitEntities I K A D
  settled : List K
deriving DecidableEq

inductive IdentityCall (I K A D : Type) where
  | upsert (entities : List (EntityRecord I K A D))
  | upsertFails (entities : List (EntityRecord I K A D)) (written : EntityRecord I K A D → Bool)
  | delete (id : I) (vectorFails : Bool)
  | forget (doc : D) (now writes : ℕ)

section System

variable {I K A D : Type} [DecidableEq I] [DecidableEq K] [DecidableEq D] [DecidableEq A] [EmptyCollection A]

/-- The keys that no record with one of the ids has. -/
def SplitEntities.untouched (s : SplitEntities I K A D) (ids : List I) (keys : List K) : List K :=
  keysWithout s.nodes ids (keysWithout s.rows ids keys)

def IdentityState.step (s : IdentityState I K A D) : IdentityCall I K A D → IdentityState I K A D
  | .upsert entities =>
      ⟨s.stores.upsertEntitiesBatch entities, s.settled ++ entities.map EntityRecord.key⟩
  | .upsertFails entities written => { s with stores := s.stores.upsertPartly entities written }
  | .delete id vectorFails =>
      ⟨s.stores.deleteEntity id vectorFails, s.stores.untouched [id] s.settled⟩
  | .forget doc now writes =>
      ⟨s.stores.forget doc now writes, s.stores.untouched (s.stores.cascadeIds now (isOrphan doc)) s.settled⟩

/-- The mentioned entities that have a node have a row. -/
def SplitEntities.Anchored (s : SplitEntities I K A D) (entities : List (EntityRecord I K A D)) : Prop :=
  ∀ e ∈ entities, ∀ n ∈ s.nodes, n.key = e.key → ∃ r ∈ s.rows, r.key = e.key

def IdentityState.Anchors (s : IdentityState I K A D) : IdentityCall I K A D → Prop
  | .upsert entities | .upsertFails entities _ => s.stores.Anchored entities
  | .delete _ _ | .forget _ _ _ => True

instance (s : IdentityState I K A D) (call : IdentityCall I K A D) : Decidable (s.Anchors call) :=
  match call with
  | .upsert entities | .upsertFails entities _ =>
      inferInstanceAs (Decidable (∀ e ∈ entities, ∀ n ∈ s.stores.nodes, _ → ∃ r ∈ s.stores.rows, _))
  | .delete _ _ | .forget _ _ _ => .isTrue trivial

/-- A settled entity has one id in both stores. -/
def IdentityState.OneId (s : IdentityState I K A D) : Prop :=
  ∀ k ∈ s.settled, ∃ i, idAt s.stores.rows k = some i ∧ idAt s.stores.nodes k = some i

end System

/-! ## Ids under keys -/

section Ids

variable {I K A D : Type} [DecidableEq K]

theorem idAt_eq_none_iff {l : List (EntityRecord I K A D)} {k : K} : idAt l k = none ↔ ∀ r ∈ l, r.key ≠ k := by
  unfold idAt
  rw [Option.map_eq_none_iff, KeyedMerge.get_eq_none_iff]

theorem exists_of_idAt {l : List (EntityRecord I K A D)} {k : K} {i : I} (h : idAt l k = some i) :
    ∃ r ∈ l, r.key = k ∧ r.id = i := by
  obtain ⟨r, hget, hid⟩ := Option.map_eq_some_iff.mp h
  exact ⟨r, KeyedMerge.mem_of_get hget, KeyedMerge.key_of_get hget, hid⟩

variable [DecidableEq I]

theorem idAt_removeIds {l : List (EntityRecord I K A D)} (hn : (l.map EntityRecord.key).Nodup) (ids : List I) (k : K) :
    idAt (removeIds ids l) k = (idAt l k).filter fun i => decide (i ∉ ids) := by
  unfold idAt removeIds
  rw [KeyedMerge.get_filter hn, Option.filter_map]
  rfl

omit [DecidableEq K] in
theorem nodup_removeIds {l : List (EntityRecord I K A D)} (hn : (l.map EntityRecord.key).Nodup) (ids : List I) :
    ((removeIds ids l).map EntityRecord.key).Nodup :=
  hn.sublist (List.filter_sublist.map _)

theorem idAt_changeSources (ids : List I) (f : List D → List D) (l : List (EntityRecord I K A D)) (k : K) :
    idAt (l.map (changeSources ids f)) k = idAt l k := by
  unfold idAt
  rw [KeyedMerge.get_map (key_changeSources ids f), Option.map_map]
  congr 1
  funext r
  exact congrArg Prod.fst (window_changeSources ids f r)

/-- A key that is kept has no record with one of the ids. -/
theorem SplitEntities.untouched_spec {s : SplitEntities I K A D} {ids : List I} {keys : List K} {k : K}
    (h : k ∈ s.untouched ids keys) : k ∈ keys ∧ ∀ i, idAt s.rows k = some i → i ∉ ids := by
  obtain ⟨hrows, -⟩ := List.mem_filter.mp h
  obtain ⟨hmem, hkept⟩ := List.mem_filter.mp hrows
  refine ⟨hmem, fun i hi hin => ?_⟩
  obtain ⟨r, hr, rfl, rfl⟩ := exists_of_idAt hi
  exact of_decide_eq_true hkept (List.mem_map_of_mem (List.mem_filter.mpr ⟨hr, decide_eq_true hin⟩))

end Ids

/-! ## Stores that agree -/

section Stores

variable {I K A D : Type} [DecidableEq K]

/-- No key has two ids. -/
structure SplitEntities.Consistent (s : SplitEntities I K A D) : Prop where
  row_keys : (s.rows.map EntityRecord.key).Nodup
  node_keys : (s.nodes.map EntityRecord.key).Nodup
  agree : ∀ k i j, idAt s.rows k = some i → idAt s.nodes k = some j → i = j

section Upsert

variable [DecidableEq D] [DecidableEq A] [EmptyCollection A]

/-- **An upsert of entities whose nodes have rows**, of which the graph writes any part. -/
theorem SplitEntities.Consistent.upsertPartly {s : SplitEntities I K A D} (h : s.Consistent)
    {entities : List (EntityRecord I K A D)} (hanchored : s.Anchored entities)
    (written : EntityRecord I K A D → Bool) : (s.upsertPartly entities written).Consistent := by
  refine ⟨nodup_upsertRows h.row_keys _, nodup_upsertNodes h.node_keys _, fun k i j hi hj => ?_⟩
  change idAt (upsertRows s.rows entities) k = some i at hi
  change idAt (upsertNodes s.nodes ((syncIds (upsertRows s.rows entities) entities).filter written)) k = some j at hj
  rw [idAt_upsertNodes] at hj
  rcases Option.or_eq_some_iff.mp hj with hold | ⟨-, hnew⟩
  · -- the node was there, so was its row
    obtain ⟨n, hn, hkey, -⟩ := exists_of_idAt hold
    rw [idAt_upsertRows] at hi
    rcases Option.or_eq_some_iff.mp hi with hrow | ⟨hnone, hmention⟩
    · exact h.agree k i j hrow hold
    · obtain ⟨e, he, hek, -⟩ := exists_of_find? hmention
      obtain ⟨r, hr, hrk⟩ := hanchored e he n hn (hkey.trans hek.symm)
      exact absurd (hrk.trans hek) (idAt_eq_none_iff.mp hnone r hr)
  · obtain ⟨e, he, rfl, rfl⟩ := exists_of_find? hnew
    rw [idAt_of_mem_syncIds (List.mem_of_mem_filter he)] at hi
    exact (Option.some.inj hi).symm

end Upsert

variable [DecidableEq I]

theorem SplitEntities.Consistent.removeRows {s : SplitEntities I K A D} (h : s.Consistent) (ids : List I) :
    SplitEntities.Consistent { s with rows := removeIds ids s.rows } := by
  refine ⟨nodup_removeIds h.row_keys ids, h.node_keys, fun k i j hi hj => ?_⟩
  change idAt (removeIds ids s.rows) k = some i at hi
  rw [idAt_removeIds h.row_keys] at hi
  exact h.agree k i j (Option.filter_eq_some_iff.mp hi).1 hj

theorem SplitEntities.Consistent.removeNodes {s : SplitEntities I K A D} (h : s.Consistent) (ids : List I) :
    SplitEntities.Consistent { s with nodes := removeIds ids s.nodes } := by
  refine ⟨h.row_keys, nodup_removeIds h.node_keys ids, fun k i j hi hj => ?_⟩
  change idAt (removeIds ids s.nodes) k = some j at hj
  rw [idAt_removeIds h.node_keys] at hj
  exact h.agree k i j hi (Option.filter_eq_some_iff.mp hj).1

theorem SplitEntities.Consistent.deleteEntity {s : SplitEntities I K A D} (h : s.Consistent) (id : I)
    (vectorFails : Bool) : (s.deleteEntity id vectorFails).Consistent := by
  cases vectorFails with
  | true => exact h.removeNodes [id]
  | false => exact (h.removeNodes [id]).removeRows [id]

variable [DecidableEq D]

theorem SplitEntities.Consistent.cascadeWrite {s t : SplitEntities I K A D} (h : t.Consistent) {doc : D} {now : ℕ}
    {write : SplitEntities I K A D → SplitEntities I K A D} (hw : write ∈ s.cascadeWrites doc now) :
    (write t).Consistent := by
  simp only [SplitEntities.cascadeWrites, List.mem_cons, List.not_mem_nil, or_false] at hw
  rcases hw with rfl | rfl | rfl | rfl
  · exact h.removeRows _
  · exact h.removeNodes _
  · refine ⟨?_, h.node_keys, fun k i j hi hj => ?_⟩
    · exact (KeyedMerge.map_key_map (key_changeSources _ _) t.rows).symm ▸ h.row_keys
    · exact h.agree k i j ((idAt_changeSources _ _ t.rows k).symm.trans hi) hj
  · refine ⟨h.row_keys, ?_, fun k i j hi hj => ?_⟩
    · exact (KeyedMerge.map_key_map (key_changeSources _ _) t.nodes).symm ▸ h.node_keys
    · exact h.agree k i j hi ((idAt_changeSources _ _ t.nodes k).symm.trans hj)

/-- A key has the id in both stores. -/
def SplitEntities.Has (s : SplitEntities I K A D) (k : K) (i : I) : Prop :=
  idAt s.rows k = some i ∧ idAt s.nodes k = some i

/-- A write of the cascade leaves an entity that is no orphan. -/
theorem SplitEntities.Has.cascadeWrite {s t : SplitEntities I K A D} (ht : t.Consistent) {k : K} {i : I}
    (h : t.Has k i) {doc : D} {now : ℕ} (hi : i ∉ s.cascadeIds now (isOrphan doc))
    {write : SplitEntities I K A D → SplitEntities I K A D} (hw : write ∈ s.cascadeWrites doc now) :
    (write t).Has k i := by
  have hkept : ∀ o : Option I, o = some i →
      (o.filter fun j => decide (j ∉ s.cascadeIds now (isOrphan doc))) = some i :=
    fun o ho => Option.filter_eq_some_iff.mpr ⟨ho, decide_eq_true hi⟩
  simp only [SplitEntities.cascadeWrites, List.mem_cons, List.not_mem_nil, or_false] at hw
  rcases hw with rfl | rfl | rfl | rfl
  · exact ⟨(idAt_removeIds ht.row_keys _ k).trans (hkept _ h.1), h.2⟩
  · exact ⟨h.1, (idAt_removeIds ht.node_keys _ k).trans (hkept _ h.2)⟩
  · exact ⟨(idAt_changeSources _ _ t.rows k).trans h.1, h.2⟩
  · exact ⟨h.1, (idAt_changeSources _ _ t.nodes k).trans h.2⟩

/-- The cascade, wherever it stops. -/
theorem SplitEntities.Consistent.forget {s : SplitEntities I K A D} (h : s.Consistent) (doc : D) (now writes : ℕ) :
    (s.forget doc now writes).Consistent ∧
      ∀ k i, s.Has k i → i ∉ s.cascadeIds now (isOrphan doc) → (s.forget doc now writes).Has k i := by
  have hfold : ∀ ws : List (SplitEntities I K A D → SplitEntities I K A D), (∀ w ∈ ws, w ∈ s.cascadeWrites doc now) →
      ∀ t : SplitEntities I K A D, t.Consistent →
      (ws.foldl (fun t write => write t) t).Consistent ∧
        ∀ k i, t.Has k i → i ∉ s.cascadeIds now (isOrphan doc) → (ws.foldl (fun t write => write t) t).Has k i := by
    intro ws
    induction ws with
    | nil => exact fun _ t ht => ⟨ht, fun _ _ hk _ => hk⟩
    | cons w ws ih =>
        intro hws t ht
        rw [List.forall_mem_cons] at hws
        obtain ⟨hcons, hhas⟩ := ih hws.2 (w t) (ht.cascadeWrite hws.1)
        exact ⟨hcons, fun k i hk hi => hhas k i (hk.cascadeWrite ht hi hws.1) hi⟩
  exact hfold _ (fun w hw => List.mem_of_mem_take hw) s h

end Stores

/-! ## Runs -/

section Runs

variable {I K A D : Type} [DecidableEq I] [DecidableEq K] [DecidableEq D] [DecidableEq A] [EmptyCollection A]

structure IdentityState.Inv (s : IdentityState I K A D) : Prop where
  consistent : s.stores.Consistent
  settled : s.OneId

omit [DecidableEq I] in
theorem SplitEntities.upsertPartly_all (s : SplitEntities I K A D) (entities : List (EntityRecord I K A D)) :
    s.upsertPartly entities (fun _ => true) = s.upsertEntitiesBatch entities := by
  unfold SplitEntities.upsertPartly SplitEntities.upsertEntitiesBatch
  dsimp only
  rw [List.filter_eq_self.mpr fun _ _ => rfl]

omit [DecidableEq I] in
/-- An upsert leaves the ids that are there. -/
theorem SplitEntities.Has.upsertPartly {s : SplitEntities I K A D} {k : K} {i : I} (h : s.Has k i)
    (entities : List (EntityRecord I K A D)) (written : EntityRecord I K A D → Bool) :
    (s.upsertPartly entities written).Has k i := by
  constructor
  · show idAt (upsertRows s.rows entities) k = some i
    rw [idAt_upsertRows, h.1]
    rfl
  · show idAt (upsertNodes s.nodes _) k = some i
    rw [idAt_upsertNodes, h.2]
    rfl

omit [DecidableEq I] in
/-- A mentioned entity has a row and a node once both stores are written. -/
theorem SplitEntities.Consistent.has_of_mentioned {s : SplitEntities I K A D}
    {entities : List (EntityRecord I K A D)} (h : (s.upsertEntitiesBatch entities).Consistent) {k : K}
    (hk : k ∈ entities.map EntityRecord.key) : ∃ i, (s.upsertEntitiesBatch entities).Has k i := by
  have hrow : (idAt (upsertRows s.rows entities) k).isSome = true := idAt_upsertRows_isSome hk
  obtain ⟨i, hi⟩ := Option.isSome_iff_exists.mp hrow
  have hnode : idAt (s.upsertEntitiesBatch entities).nodes k ≠ none := by
    rw [idAt_upsertEntitiesBatch, if_pos hk, hi]
    cases idAt s.nodes k with
    | none => exact Option.some_ne_none i
    | some j => exact Option.some_ne_none j
  obtain ⟨j, hj⟩ := Option.ne_none_iff_exists'.mp hnode
  refine ⟨i, hi, ?_⟩
  rw [h.agree k i j hi hj]
  exact hj

theorem IdentityState.Inv.step {s : IdentityState I K A D} (h : s.Inv) {call : IdentityCall I K A D}
    (hguard : s.Anchors call) : (s.step call).Inv := by
  cases call with
  | upsert entities =>
      have hconsistent : (s.stores.upsertEntitiesBatch entities).Consistent := by
        rw [← SplitEntities.upsertPartly_all]
        exact h.consistent.upsertPartly hguard _
      refine ⟨hconsistent, fun k hk => ?_⟩
      rcases List.mem_append.mp hk with hk | hk
      · obtain ⟨i, hi⟩ := h.settled k hk
        have hhas : (s.stores.upsertPartly entities fun _ => true).Has k i :=
          SplitEntities.Has.upsertPartly hi entities _
        rw [SplitEntities.upsertPartly_all] at hhas
        exact ⟨i, hhas⟩
      · exact hconsistent.has_of_mentioned hk
  | upsertFails entities written =>
      refine ⟨h.consistent.upsertPartly hguard written, fun k hk => ?_⟩
      obtain ⟨i, hi⟩ := h.settled k hk
      exact ⟨i, SplitEntities.Has.upsertPartly hi entities written⟩
  | delete id vectorFails =>
      refine ⟨h.consistent.deleteEntity id vectorFails, fun k hk => ?_⟩
      obtain ⟨hmem, hkept⟩ := SplitEntities.untouched_spec hk
      obtain ⟨i, hrow, hnode⟩ := h.settled k hmem
      have hi := hkept i hrow
      refine ⟨i, ?_, (idAt_removeIds h.consistent.node_keys [id] k).trans ?_⟩
      · cases vectorFails with
        | true => exact hrow
        | false =>
            refine (idAt_removeIds h.consistent.row_keys [id] k).trans ?_
            exact Option.filter_eq_some_iff.mpr ⟨hrow, decide_eq_true hi⟩
      · exact Option.filter_eq_some_iff.mpr ⟨hnode, decide_eq_true hi⟩
  | forget doc now writes =>
      obtain ⟨hconsistent, hhas⟩ := h.consistent.forget doc now writes
      refine ⟨hconsistent, fun k hk => ?_⟩
      obtain ⟨hmem, hkept⟩ := SplitEntities.untouched_spec hk
      obtain ⟨i, hi⟩ := h.settled k hmem
      exact ⟨i, hhas k i hi (hkept i hi.1)⟩

omit [DecidableEq I] [DecidableEq D] [DecidableEq A] [EmptyCollection A] in
theorem IdentityState.inv_start : (⟨⟨[], []⟩, []⟩ : IdentityState I K A D).Inv := by
  refine ⟨⟨List.nodup_nil, List.nodup_nil, fun k i j hi => ?_⟩, fun k hk => absurd hk List.not_mem_nil⟩
  cases hi

/-- **A settled entity has one id in both stores**, in every state of a run in which no call mentions
an entity that has a node and no row. -/
theorem settled_same_id (calls : List (IdentityCall I K A D))
    (h : Runs.Guarded IdentityState.step IdentityState.Anchors ⟨⟨[], []⟩, []⟩ calls) :
    Runs.Always IdentityState.step IdentityState.OneId ⟨⟨[], []⟩, []⟩ calls := by
  have hstep : ∀ (s : IdentityState I K A D) (call : IdentityCall I K A D), True → s.Inv →
      s.Anchors call → (s.step call).Inv := fun s call _ hinv hg => hinv.step hg
  exact Runs.always_of_guarded hstep (fun _ hinv => hinv.settled) (fun _ _ => trivial)
    IdentityState.inv_start h

end Runs

/-- A deletion that fails in the vector store, and the next mention of the entity. -/
def halfDeleted : List (IdentityCall ℕ ℕ (List ℕ) ℕ) :=
  [.upsert [mentionOf 10 1 5], .delete 10 true, .upsert [mentionOf 11 1 6], .forget 5 0 4]

theorem halfDeleted_one_id :
    Runs.Guarded IdentityState.step IdentityState.Anchors ⟨⟨[], []⟩, []⟩ halfDeleted ∧
    Runs.Always IdentityState.step IdentityState.OneId ⟨⟨[], []⟩, []⟩ halfDeleted := by
  have hguarded : Runs.Guarded IdentityState.step IdentityState.Anchors ⟨⟨[], []⟩, []⟩ halfDeleted := by decide
  exact ⟨hguarded, settled_same_id halfDeleted hguarded⟩

/-- A forget whose graph delete fails, and the next mention of the entity. -/
def halfForgotten : List (IdentityCall ℕ ℕ (List ℕ) ℕ) :=
  [.upsert [mentionOf 10 1 5], .forget 5 0 1, .upsert [mentionOf 11 1 6]]

/-- **The row has the id of the new mention, the node that of the old one.** -/
theorem strandedNode_splits :
    1 ∈ (Runs.run IdentityState.step ⟨⟨[], []⟩, []⟩ halfForgotten).settled ∧
    idAt (Runs.run IdentityState.step ⟨⟨[], []⟩, []⟩ halfForgotten).stores.rows 1 = some 11 ∧
    idAt (Runs.run IdentityState.step ⟨⟨[], []⟩, []⟩ halfForgotten).stores.nodes 1 = some 10 ∧
    ¬Runs.Always IdentityState.step IdentityState.OneId ⟨⟨[], []⟩, []⟩ halfForgotten := by
  refine ⟨by decide, by decide, by decide, fun h => ?_⟩
  obtain ⟨i, hrow, hnode⟩ := h.2.2.1 1 (by decide)
  have hids : some i = some 11 := hrow.symm
  rw [hids] at hnode
  exact absurd hnode (by decide)

end Khora
