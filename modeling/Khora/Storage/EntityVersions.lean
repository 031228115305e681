import Khora.Lib.Runs
import Khora.Storage.SplitEntities

/-!
# Created, updated, superseded

Of an upsert the graph reports, for each entity, whether the entity is new, and for one that is not
and has other attributes now it makes an `:EntityVersion` with the attributes of before.  It takes
an entity for new if the id of the node is the id that the entity came with.

On a split stack the vector store has set that id to the id of the row, which is that of the node.

* `SplitEntities.Twin.graphRecords_eq` — every entity is taken for new, so that no snapshot is made.
* `calls_right_iff` — the reports and the snapshots of all calls are right if and only if no two
  calls have an entity in common.
* `secondMention_unversioned` — two calls for one entity, with other attributes.
-/

namespace Khora

/-- A record that `_UPSERT_CYPHER` returns, with the key of its entity. -/
structure GraphRecord (I K : Type) where
  id : I
  inputId : I
  key : K
  isNew : Bool
deriving DecidableEq, Repr

/-- The first of those that agree. -/
def keepFirst {X Y : Type} [DecidableEq Y] (f : X → Y) : List X → List X
  | [] => []
  | x :: xs => x :: (keepFirst f xs).filter fun y => decide (f y ≠ f x)

section Calls

variable {I K A D : Type} [DecidableEq I] [DecidableEq K] [DecidableEq D] [DecidableEq A] [EmptyCollection A]

/-- The entities as the graph gets them. -/
def SplitEntities.synced (s : SplitEntities I K A D) (entities : List (EntityRecord I K A D)) :
    List (EntityRecord I K A D) :=
  syncIds (upsertRows s.rows entities) entities

/-- What `_UPSERT_CYPHER` returns. -/
def SplitEntities.graphRecords (s : SplitEntities I K A D) (entities : List (EntityRecord I K A D)) :
    List (GraphRecord I K) :=
  (s.synced entities).filterMap fun e =>
    (idAt (s.upsertEntitiesBatch entities).nodes e.key).map fun i => ⟨i, e.id, e.key, decide (i = e.id)⟩

/-- The tuples that `upsert_entities_batch` returns, an entity for its key. -/
def SplitEntities.upsertResults (s : SplitEntities I K A D) (entities : List (EntityRecord I K A D)) :
    List (K × Bool) :=
  (keepFirst GraphRecord.key (keepFirst GraphRecord.inputId (s.graphRecords entities))).map fun record =>
    (record.key, record.isNew)

/-- One turn of the loop that collects `version_rows`: the id of the node and the attributes that
were fetched before the merge. -/
def SplitEntities.versionRow (s : SplitEntities I K A D) (entities : List (EntityRecord I K A D))
    (record : GraphRecord I K) : Option (I × A) :=
  if record.isNew then none else
    match (s.synced entities).reverse.find? fun e => decide (e.id = record.inputId) with
    | none => none
    | some row =>
        match KeyedMerge.get EntityRecord.key s.nodes row.key with
        | none => none
        | some pre =>
            if row.attributes = ∅ ∨ pre.attributes = row.attributes then none
            else some (record.id, pre.attributes)

/-- The snapshots that `_VERSION_CYPHER` creates. -/
def SplitEntities.snapshots (s : SplitEntities I K A D) (entities : List (EntityRecord I K A D)) : List (K × A) :=
  ((s.graphRecords entities).filterMap (s.versionRow entities)).flatMap fun v =>
    ((s.upsertEntitiesBatch entities).nodes.filter fun n => decide (n.id = v.1)).map fun n => (n.key, v.2)

/-- The attributes that the call replaces under a key. -/
def SplitEntities.superseded (s : SplitEntities I K A D) (entities : List (EntityRecord I K A D)) (k : K) :
    Option (K × A) :=
  match KeyedMerge.get EntityRecord.key s.nodes k, entities.find? fun e => decide (e.key = k) with
  | some n, some e =>
      if e.attributes ≠ ∅ ∧ e.attributes ≠ n.attributes then some (k, n.attributes) else none
  | _, _ => none

/-- The flags say which entities were not in the graph, and each change of attributes leaves one
snapshot. -/
structure SplitEntities.CallRight (s : SplitEntities I K A D) (entities : List (EntityRecord I K A D)) : Prop where
  flags : ∀ e ∈ entities, ∀ isNew,
    (e.key, isNew) ∈ s.upsertResults entities ↔ isNew = decide (idAt s.nodes e.key = none)
  snapshots : ∀ k, ((s.snapshots entities).filter fun v => decide (v.1 = k)) = (s.superseded entities k).toList

end Calls

/-! ## One call -/

theorem keepFirst_of_nodup {X Y : Type} [DecidableEq Y] {f : X → Y} {l : List X} (h : (l.map f).Nodup) :
    keepFirst f l = l := by
  induction l with
  | nil => rfl
  | cons x xs ih =>
      rw [List.map_cons, List.nodup_cons] at h
      unfold keepFirst
      rw [ih h.2, List.filter_eq_self.mpr]
      intro y hy
      apply decide_eq_true
      intro heq
      exact h.1 (heq ▸ List.mem_map_of_mem hy)

section OneCall

variable {I K A D : Type} [DecidableEq K]

/-- A key has one id in both stores, and an id that was used by then. -/
structure SplitEntities.Twin (s : SplitEntities I K A D) (used : List I) : Prop where
  same : ∀ k, idAt s.rows k = idAt s.nodes k
  seen : ∀ k i, idAt s.rows k = some i → i ∈ used
  inj : ∀ k k' i, idAt s.rows k = some i → idAt s.rows k' = some i → k = k'

variable [DecidableEq D] [DecidableEq A] [EmptyCollection A]
variable {s : SplitEntities I K A D} {used : List I} {entities : List (EntityRecord I K A D)}

theorem SplitEntities.Twin.upsert (h : s.Twin used) (hfresh : (used ++ entities.map EntityRecord.id).Nodup) :
    (s.upsertEntitiesBatch entities).Twin (used ++ entities.map EntityRecord.id) := by
  rw [List.nodup_append] at hfresh
  obtain ⟨-, hids, hdisjoint⟩ := hfresh
  -- an id is that of a row of before, or of a mention
  have hcases : ∀ k i, idAt (s.upsertEntitiesBatch entities).rows k = some i →
      idAt s.rows k = some i ∨ ∃ e ∈ entities, e.key = k ∧ e.id = i := by
    intro k i hi
    rw [show idAt (s.upsertEntitiesBatch entities).rows k = _ from idAt_upsertRows _ _ _] at hi
    rcases Option.or_eq_some_iff.mp hi with hi | ⟨-, hi⟩
    · exact .inl hi
    · exact .inr (exists_of_find? hi)
  have hapart : ∀ k i, idAt s.rows k = some i → ∀ e ∈ entities, e.id ≠ i := by
    intro k i hi e he heq
    exact hdisjoint i (h.seen k i hi) e.id (List.mem_map_of_mem he) heq.symm
  refine ⟨fun k => idAt_upsert_same (h.same k), fun k i hi => ?_, fun k k' i hi hi' => ?_⟩
  · rcases hcases k i hi with hold | ⟨e, he, -, rfl⟩
    · exact List.mem_append_left _ (h.seen k i hold)
    · exact List.mem_append_right _ (List.mem_map_of_mem he)
  · rcases hcases k i hi with hold | ⟨e, he, hk, hid⟩
    · rcases hcases k' i hi' with hold' | ⟨e', he', -, hid'⟩
      · exact h.inj k k' i hold hold'
      · exact absurd hid' (hapart k i hold e' he')
    · rcases hcases k' i hi' with hold' | ⟨e', he', hk', hid'⟩
      · exact absurd hid (hapart k' i hold' e he)
      · rw [← hk, ← hk', List.inj_on_of_nodup_map hids he he' (hid.trans hid'.symm)]

/-- The id of a mention once it is synced. -/
def SplitEntities.syncedId (s : SplitEntities I K A D) (entities : List (EntityRecord I K A D))
    (e : EntityRecord I K A D) : I :=
  (idAt (upsertRows s.rows entities) e.key).getD e.id

theorem SplitEntities.idAt_syncedId {e : EntityRecord I K A D} (he : e ∈ entities) :
    idAt (s.upsertEntitiesBatch entities).rows e.key = some (s.syncedId entities e) := by
  have hrow : (idAt (upsertRows s.rows entities) e.key).isSome = true :=
    idAt_upsertRows_isSome (List.mem_map_of_mem he)
  obtain ⟨i, hi⟩ := Option.isSome_iff_exists.mp hrow
  unfold SplitEntities.syncedId
  rw [hi]
  exact hi

variable [DecidableEq I]

/-- **Every entity is taken for new.** -/
theorem SplitEntities.Twin.graphRecords_eq (h : s.Twin used) :
    s.graphRecords entities =
      entities.map fun e => ⟨s.syncedId entities e, s.syncedId entities e, e.key, true⟩ := by
  unfold SplitEntities.graphRecords SplitEntities.synced syncIds
  rw [List.filterMap_map, ← List.filterMap_eq_map]
  apply List.filterMap_congr
  intro e he
  have hnode := (idAt_upsert_same (h.same e.key)).symm.trans (SplitEntities.idAt_syncedId he)
  show (idAt (s.upsertEntitiesBatch entities).nodes e.key).map _ = some _
  rw [hnode]
  show some (⟨_, s.syncedId entities e, _, decide (_ = s.syncedId entities e)⟩ : GraphRecord I K) = _
  rw [decide_eq_true rfl]

theorem SplitEntities.Twin.snapshots_eq (h : s.Twin used) : s.snapshots entities = [] := by
  have hrows : (s.graphRecords entities).filterMap (s.versionRow entities) = [] := by
    rw [List.filterMap_eq_nil_iff, h.graphRecords_eq]
    intro record hrecord
    obtain ⟨e, -, rfl⟩ := List.mem_map.mp hrecord
    rfl
  unfold SplitEntities.snapshots
  rw [hrows]
  rfl

theorem SplitEntities.Twin.upsertResults_eq (h : s.Twin used)
    (hfresh : (used ++ entities.map EntityRecord.id).Nodup) (honce : (entities.map EntityRecord.key).Nodup) :
    s.upsertResults entities = entities.map fun e => (e.key, true) := by
  have hids : ((s.graphRecords entities).map GraphRecord.inputId).Nodup := by
    rw [h.graphRecords_eq, List.map_map]
    apply (List.Nodup.of_map _ honce).map_on
    intro e he e' he' heq
    have hkey := (h.upsert hfresh).inj e.key e'.key _ (SplitEntities.idAt_syncedId he)
      ((SplitEntities.idAt_syncedId he').trans (congrArg some heq.symm))
    exact List.inj_on_of_nodup_map honce he he' hkey
  have hkeys : ((s.graphRecords entities).map GraphRecord.key).Nodup := by
    rw [h.graphRecords_eq, List.map_map]
    exact honce
  unfold SplitEntities.upsertResults
  rw [keepFirst_of_nodup hids, keepFirst_of_nodup hkeys, h.graphRecords_eq, List.map_map]
  rfl

/-- A call is right if and only if none of its entities was in the graph. -/
theorem SplitEntities.Twin.callRight_iff (h : s.Twin used)
    (hfresh : (used ++ entities.map EntityRecord.id).Nodup) (honce : (entities.map EntityRecord.key).Nodup) :
    s.CallRight entities ↔ ∀ e ∈ entities, idAt s.nodes e.key = none := by
  have hresults := h.upsertResults_eq hfresh honce
  constructor
  · intro hright e he
    have hnew : (e.key, true) ∈ s.upsertResults entities := by
      rw [hresults]
      exact List.mem_map_of_mem he
    exact of_decide_eq_true ((hright.flags e he true).mp hnew).symm
  · intro hnone
    refine ⟨fun e he isNew => ?_, fun k => ?_⟩
    · rw [hresults, decide_eq_true (hnone e he)]
      constructor
      · intro hmem
        obtain ⟨e', -, heq⟩ := List.mem_map.mp hmem
        exact (congrArg Prod.snd heq).symm
      · rintro rfl
        exact List.mem_map_of_mem he
    · have hkept : s.superseded entities k = none := by
        unfold SplitEntities.superseded
        split
        case h_1 n e hget hfind =>
          have hkey := List.find?_some hfind
          have hid := hnone e (List.mem_of_find?_eq_some hfind)
          rw [of_decide_eq_true hkey] at hid
          exact absurd (Option.map_eq_none_iff.mp hid) (by rw [hget]; exact Option.some_ne_none n)
        case h_2 => rfl
      rw [h.snapshots_eq, hkept]
      rfl

end OneCall

/-! ## All calls -/

section Runs

variable {I K A D : Type} [DecidableEq I] [DecidableEq K] [DecidableEq D] [DecidableEq A] [EmptyCollection A]

/-- No two calls have an entity in common. -/
def NoSecondMention (batches : List (List (EntityRecord I K A D))) : Prop :=
  batches.Pairwise fun b b' => (b.map EntityRecord.key).Disjoint (b'.map EntityRecord.key)

omit [DecidableEq I] in
theorem idAt_nodes_upsert_eq_none_iff {s : SplitEntities I K A D} {entities : List (EntityRecord I K A D)} {k : K} :
    idAt (s.upsertEntitiesBatch entities).nodes k = none ↔
      idAt s.nodes k = none ∧ k ∉ entities.map EntityRecord.key := by
  rw [idAt_upsertEntitiesBatch, Option.or_eq_none_iff]
  apply and_congr_right
  intro _
  by_cases hk : k ∈ entities.map EntityRecord.key
  · have hrow : (idAt (upsertRows s.rows entities) k).isSome = true := idAt_upsertRows_isSome hk
    rw [if_pos hk]
    exact iff_of_false (Option.isSome_iff_ne_none.mp hrow) (not_not.mpr hk)
  · rw [if_neg hk]
    exact iff_of_true rfl hk

theorem SplitEntities.Twin.calls_right {batches : List (List (EntityRecord I K A D))} {s : SplitEntities I K A D}
    {used : List I} (h : s.Twin used) (hfresh : (used ++ batches.flatten.map EntityRecord.id).Nodup)
    (honce : ∀ b ∈ batches, (b.map EntityRecord.key).Nodup) :
    Runs.Guarded SplitEntities.upsertEntitiesBatch SplitEntities.CallRight s batches ↔
      (∀ b ∈ batches, ∀ e ∈ b, idAt s.nodes e.key = none) ∧ NoSecondMention batches := by
  induction batches generalizing s used with
  | nil => exact iff_of_true trivial ⟨fun _ hb => absurd hb List.not_mem_nil, List.Pairwise.nil⟩
  | cons b batches ih =>
      rw [List.forall_mem_cons] at honce
      rw [List.flatten_cons, List.map_append, ← List.append_assoc] at hfresh
      have hfirst : (used ++ b.map EntityRecord.id).Nodup := (List.nodup_append.mp hfresh).1
      show s.CallRight b ∧ Runs.Guarded _ _ (s.upsertEntitiesBatch b) batches ↔ _
      rw [h.callRight_iff hfirst honce.1, ih (h.upsert hfirst) hfresh honce.2, List.forall_mem_cons]
      unfold NoSecondMention
      rw [List.pairwise_cons]
      constructor
      · rintro ⟨hb, hrest, hpairs⟩
        refine ⟨⟨hb, fun b' hb' e he => (idAt_nodes_upsert_eq_none_iff.mp (hrest b' hb' e he)).1⟩, ?_, hpairs⟩
        intro b' hb' k hk hk'
        obtain ⟨e, he, rfl⟩ := List.mem_map.mp hk'
        exact (idAt_nodes_upsert_eq_none_iff.mp (hrest b' hb' e he)).2 hk
      · rintro ⟨⟨hb, hrest⟩, hapart, hpairs⟩
        refine ⟨hb, fun b' hb' e he => ?_, hpairs⟩
        refine idAt_nodes_upsert_eq_none_iff.mpr ⟨hrest b' hb' e he, fun hk => ?_⟩
        exact hapart b' hb' hk (List.mem_map_of_mem he)

/-- **Flags and snapshots are right for every call of a run if and only if no two calls have an
entity in common.** -/
theorem calls_right_iff (batches : List (List (EntityRecord I K A D)))
    (hfresh : (batches.flatten.map EntityRecord.id).Nodup)
    (honce : ∀ b ∈ batches, (b.map EntityRecord.key).Nodup) :
    Runs.Guarded SplitEntities.upsertEntitiesBatch SplitEntities.CallRight ⟨[], []⟩ batches ↔
      NoSecondMention batches := by
  have hempty : (⟨[], []⟩ : SplitEntities I K A D).Twin [] :=
    ⟨fun _ => rfl, (fun _ _ hi => by cases hi), (fun _ _ _ hi => by cases hi)⟩
  rw [hempty.calls_right hfresh honce]
  exact and_iff_right fun _ _ _ _ => rfl

end Runs

/-- An entity as it is first extracted, and with other attributes. -/
def firstOf (id key : ℕ) : EntityRecord ℕ ℕ (List ℕ) ℕ := ⟨id, key, [1], [5], none⟩

def secondOf (id key : ℕ) : EntityRecord ℕ ℕ (List ℕ) ℕ := ⟨id, key, [2], [6], none⟩

/-- Two entities, in one call each. -/
theorem apartCalls_right : NoSecondMention [[firstOf 10 1], [firstOf 11 2]] ∧
    Runs.Guarded SplitEntities.upsertEntitiesBatch SplitEntities.CallRight ⟨[], []⟩
      [[firstOf 10 1], [firstOf 11 2]] := by
  have hapart : NoSecondMention [[firstOf 10 1], [firstOf 11 2]] := by
    unfold NoSecondMention
    simp [firstOf]
  exact ⟨hapart, (calls_right_iff _ (by decide) (by decide)).mpr hapart⟩

/-- **A second call for an entity, with other attributes**: it is reported as created, and the
attributes of before are lost. -/
theorem secondMention_unversioned :
    (1, true) ∈ (SplitEntities.upsertEntitiesBatch ⟨[], []⟩ [firstOf 10 1]).upsertResults [secondOf 11 1] ∧
    (SplitEntities.upsertEntitiesBatch ⟨[], []⟩ [firstOf 10 1]).snapshots [secondOf 11 1] = [] ∧
    (SplitEntities.upsertEntitiesBatch ⟨[], []⟩ [firstOf 10 1]).superseded [secondOf 11 1] 1 = some (1, [1]) ∧
    ¬Runs.Guarded SplitEntities.upsertEntitiesBatch SplitEntities.CallRight ⟨[], []⟩
      [[firstOf 10 1], [secondOf 11 1]] := by
  refine ⟨by decide, by decide, by decide, fun h => ?_⟩
  have hflag := (h.2.1.flags (secondOf 11 1) List.mem_cons_self true).mp (by decide)
  exact absurd hflag (by decide)

end Khora
