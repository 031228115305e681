import Khora.Storage.NamespaceVersions

/-!
# Deleting a namespace

`delete_namespace` purges the temporal, the vector and the graph store of every version of a
namespace and then, if none of these failed, deletes the relational rows, which cascade.  A
failed run may leave any part behind and is run again.

* `deletion_rerunnable` — runs are re-runnable, report every failure and strand nothing, if
  and only if no store without a `delete_namespace` of its own, and no table without a foreign
  key, holds rows of the namespace.
* `unpurged_store_stranded` — a graph store without one.
-/

namespace Khora

/-! ## Stores -/

/-- The ids of a row of `memory_namespaces`. -/
structure VersionRow (U : Type) where
  id : U
  namespaceId : U
deriving DecidableEq, Repr

/-- A row of a store that is scoped to a version. -/
structure ScopedRow (U : Type) where
  owner : U
  table : ℕ
  key : ℕ
deriving DecidableEq, Repr

/-- A store beside the relational one.  `purges` says that it has a `delete_namespace`. -/
structure Satellite (U : Type) where
  purges : Bool
  rows : List (ScopedRow U)
deriving DecidableEq, Repr

/-- How the purge of a version fails: the rows of the version that it leaves. -/
abbrev PurgeFault (U : Type) := ScopedRow U → Bool

section Versions

variable {U : Type} [DecidableEq U]

/-- `list_namespace_versions` -/
def listNamespaceVersions (rows : List (VersionRow U)) (identifier : U) : List U :=
  let stableIds := (rows.filter fun r => r.namespaceId = identifier ∨ r.id = identifier).map
    VersionRow.namespaceId
  (rows.filter fun r => r.namespaceId ∈ stableIds).map VersionRow.id

/-- The rows that are left when the version is purged. -/
def purgeRows (rows : List (ScopedRow U)) (v : U) (fault : Option (PurgeFault U)) : List (ScopedRow U) :=
  rows.filter fun r => decide (r.owner ≠ v) || fault.elim false fun left => left r

/-- `_purge`: the versions one after the other, and those that failed.  A store without the
method is passed over. -/
def purge (s : Satellite U) (faults : U → Option (PurgeFault U)) : List U → Satellite U × List U
  | [] => (s, [])
  | v :: vs =>
      if s.purges then
        let rest := purge { s with rows := purgeRows s.rows v (faults v) } faults vs
        (rest.1, if (faults v).isSome then v :: rest.2 else rest.2)
      else (s, [])

end Versions

/-! ## The cascade -/

structure NamespaceStores (U : Type) where
  versions : List (VersionRow U)
  /-- what the foreign keys of `memory_namespaces` reach -/
  relational : List (ScopedRow U)
  /-- the tables that no foreign key ties to the namespace: `khora_dream_runs`, `khora_dream_communities`,
  `dream_conflicts` and `khora_hook_subscriptions` -/
  unkeyed : List (ScopedRow U)
  temporal : Satellite U
  vector : Satellite U
  graph : Satellite U
deriving DecidableEq, Repr

/-- Which calls of a run fail. -/
structure DeletionFaults (U : Type) where
  lookup : Bool
  temporal : U → Option (PurgeFault U)
  vector : U → Option (PurgeFault U)
  graph : U → Option (PurgeFault U)
  relational : TxEnd

/-- The `Degradation` records of a run. -/
inductive DeletionDegradation (U : Type) where
  | versionLookupFailed
  | temporalPurgeFailed (row : U)
  | vectorPurgeFailed (row : U)
  | graphPurgeFailed (row : U)
  | cascadeDeleteFailed
deriving DecidableEq, Repr

/-- `NamespaceDeletionResult` -/
structure NamespaceDeletionResult (U : Type) where
  removedRowIds : List U
  namespacesRemoved : ℕ
  degradations : List (DeletionDegradation U)
deriving DecidableEq, Repr

def NamespaceDeletionResult.partialFailure {U : Type} (r : NamespaceDeletionResult U) : Bool :=
  !r.degradations.isEmpty

namespace NamespaceStores

variable {U : Type} [DecidableEq U]

/-- `DELETE FROM memory_namespaces`, with everything that cascades. -/
def deleteRows (s : NamespaceStores U) (ids : List U) : NamespaceStores U :=
  { s with
    versions := s.versions.filter fun r => r.id ∉ ids
    relational := s.relational.filter fun r => r.owner ∉ ids }

/-- The satellites after their purges, with the degradations. -/
def purgeSatellites (s : NamespaceStores U) (ids : List U) (f : DeletionFaults U) :
    NamespaceStores U × List (DeletionDegradation U) :=
  let temporal := purge s.temporal f.temporal ids
  let vector := purge s.vector f.vector ids
  let graph := purge s.graph f.graph ids
  ({ s with temporal := temporal.1, vector := vector.1, graph := graph.1 },
    temporal.2.map .temporalPurgeFailed ++ vector.2.map .vectorPurgeFailed ++ graph.2.map .graphPurgeFailed)

def deleteNamespace (s : NamespaceStores U) (identifier : U) (f : DeletionFaults U) :
    NamespaceStores U × NamespaceDeletionResult U :=
  if f.lookup then (s, ⟨[], 0, [.versionLookupFailed]⟩)
  else
    let ids := listNamespaceVersions s.versions identifier
    if ids.isEmpty then (s, ⟨[], 0, []⟩)
    else
      let purged := s.purgeSatellites ids f
      if !purged.2.isEmpty then (purged.1, ⟨ids, 0, purged.2⟩)
      else
        match f.relational with
        | .committed => (purged.1.deleteRows ids, ⟨ids, ids.length, []⟩)
        | .aborted => (purged.1, ⟨ids, 0, [.cascadeDeleteFailed]⟩)
        | .lost => (purged.1.deleteRows ids, ⟨ids, 0, [.cascadeDeleteFailed]⟩)

/-- The version has a row in some store. -/
def Owns (s : NamespaceStores U) (v : U) : Prop :=
  (∃ r ∈ s.relational, r.owner = v) ∨ (∃ r ∈ s.temporal.rows, r.owner = v) ∨
    (∃ r ∈ s.vector.rows, r.owner = v) ∨ (∃ r ∈ s.graph.rows, r.owner = v) ∨ ∃ r ∈ s.unkeyed, r.owner = v

/-- The purges of every version return. -/
def SatellitesReturn (s : NamespaceStores U) (f : DeletionFaults U) (ids : List U) : Prop :=
  ∀ v ∈ ids, (s.temporal.purges = true → f.temporal v = none) ∧
    (s.vector.purges = true → f.vector v = none) ∧ (s.graph.purges = true → f.graph v = none)

/-- A step of the run fails: the lookup, a purge, or the deletion of the rows, which comes
only after purges that all returned. -/
def StepFails (s : NamespaceStores U) (identifier : U) (f : DeletionFaults U) : Prop :=
  f.lookup = true ∨ ¬s.SatellitesReturn f (listNamespaceVersions s.versions identifier) ∨
    (listNamespaceVersions s.versions identifier ≠ [] ∧ f.relational ≠ .committed)

/-- What the foreign keys do not reach of the version lies in stores with a `delete_namespace`. -/
def Purgeable (s : NamespaceStores U) (v : U) : Prop :=
  (∀ t ∈ [s.temporal, s.vector, s.graph], t.purges = false → ∀ r ∈ t.rows, r.owner ≠ v) ∧
    ∀ r ∈ s.unkeyed, r.owner ≠ v

/-- The stores after several runs. -/
def afterRuns (s : NamespaceStores U) (identifier : U) (runs : List (DeletionFaults U)) : NamespaceStores U :=
  Runs.run (fun s f => (s.deleteNamespace identifier f).1) s runs

end NamespaceStores

/-! ## What a run leaves -/

section Purge

variable {U : Type} [DecidableEq U]

theorem purgeRows_subset (rows : List (ScopedRow U)) (v : U) (fault : Option (PurgeFault U)) :
    purgeRows rows v fault ⊆ rows :=
  List.filter_sublist.subset

/-- A store without the method is left as it is. -/
theorem purge_of_not {s : Satellite U} (h : s.purges = false) (faults : U → Option (PurgeFault U))
    (ids : List U) : purge s faults ids = (s, []) := by
  cases ids with
  | nil => rfl
  | cons v vs =>
      rw [purge, h]
      rfl

/-- A purge deletes rows and nothing else. -/
theorem purge_frame (faults : U → Option (PurgeFault U)) (ids : List U) : ∀ s : Satellite U,
    (purge s faults ids).1.purges = s.purges ∧ (purge s faults ids).1.rows ⊆ s.rows := by
  induction ids with
  | nil => exact fun s => ⟨rfl, List.Subset.refl _⟩
  | cons v vs ih =>
      intro s
      rw [purge]
      split
      · obtain ⟨hpurges, hrows⟩ := ih { s with rows := purgeRows s.rows v (faults v) }
        exact ⟨hpurges, fun r hr => purgeRows_subset _ _ _ (hrows hr)⟩
      · exact ⟨rfl, List.Subset.refl _⟩

theorem purge_failed (faults : U → Option (PurgeFault U)) (ids : List U) : ∀ s : Satellite U,
    (purge s faults ids).2 = [] ↔ (s.purges = true → ∀ v ∈ ids, faults v = none) := by
  induction ids with
  | nil => exact fun s => ⟨fun _ _ => List.forall_mem_nil _, fun _ => rfl⟩
  | cons v vs ih =>
      intro s
      rw [purge]
      split
      next hp =>
        have hrest := ih { s with rows := purgeRows s.rows v (faults v) }
        rw [List.forall_mem_cons]
        cases hv : faults v with
        | none =>
            rw [hv] at hrest
            exact hrest.trans ⟨fun h hp => ⟨rfl, h hp⟩, fun h hp => (h hp).2⟩
        | some left =>
            refine ⟨fun h => ?_, fun h => ?_⟩
            · cases h
            · cases (h hp).1
      next hp => exact ⟨fun _ h => absurd h hp, fun _ => rfl⟩

/-- A purge that returns for every version leaves no row of them. -/
theorem purge_returned (faults : U → Option (PurgeFault U)) (ids : List U) : ∀ s : Satellite U,
    s.purges = true → (∀ v ∈ ids, faults v = none) → ∀ r ∈ (purge s faults ids).1.rows, r.owner ∉ ids := by
  induction ids with
  | nil => exact fun _ _ _ _ _ => List.not_mem_nil
  | cons v vs ih =>
      intro s hp hnone r hr
      rw [List.forall_mem_cons] at hnone
      rw [purge, if_pos hp] at hr
      have hvs := ih { s with rows := purgeRows s.rows v (faults v) } hp hnone.2 r hr
      have hmem := (purge_frame faults vs { s with rows := purgeRows s.rows v (faults v) }).2 hr
      have hv := (List.mem_filter.mp hmem).2
      rw [hnone.1, Option.elim_none, Bool.or_false, decide_eq_true_eq] at hv
      rw [List.mem_cons, not_or]
      exact ⟨hv, hvs⟩

end Purge

namespace NamespaceStores

variable {U : Type} [DecidableEq U] {s s₀ : NamespaceStores U} {identifier : U} {f : DeletionFaults U}

theorem purgeSatellites_failed (s : NamespaceStores U) (ids : List U) (f : DeletionFaults U) :
    (s.purgeSatellites ids f).2 = [] ↔ s.SatellitesReturn f ids := by
  rw [purgeSatellites]
  dsimp only
  rw [List.append_eq_nil_iff, List.append_eq_nil_iff, List.map_eq_nil_iff, List.map_eq_nil_iff,
    List.map_eq_nil_iff, purge_failed, purge_failed, purge_failed]
  constructor
  · rintro ⟨⟨ht, hv⟩, hg⟩ v hmem
    exact ⟨fun hp => ht hp v hmem, fun hp => hv hp v hmem, fun hp => hg hp v hmem⟩
  · intro h
    exact ⟨⟨fun hp v hmem => (h v hmem).1 hp, fun hp v hmem => (h v hmem).2.1 hp⟩,
      fun hp v hmem => (h v hmem).2.2 hp⟩

/-- **The kinds of run**: it stops without a change, it purges some satellites, or it deletes
the rows after all of them. -/
theorem deleteNamespace_cases (s : NamespaceStores U) (identifier : U) (f : DeletionFaults U) :
    let ids := listNamespaceVersions s.versions identifier
    let run := s.deleteNamespace identifier f
    (run.1 = s ∧ (f.lookup = true ∨ ids = []) ∧ (run.2.partialFailure = true ↔ f.lookup = true)) ∨
      (f.lookup = false ∧ ids ≠ [] ∧ run.1 = (s.purgeSatellites ids f).1 ∧ run.2.partialFailure = true ∧
        (¬s.SatellitesReturn f ids ∨ f.relational = .aborted)) ∨
      (f.lookup = false ∧ ids ≠ [] ∧ run.1 = (s.purgeSatellites ids f).1.deleteRows ids ∧
        s.SatellitesReturn f ids ∧ (run.2.partialFailure = true ↔ f.relational ≠ .committed)) := by
  dsimp only
  unfold deleteNamespace
  cases hlookup : f.lookup with
  | true => exact .inl ⟨rfl, .inl rfl, ⟨fun _ => rfl, fun _ => rfl⟩⟩
  | false =>
      rw [if_neg Bool.false_ne_true]
      dsimp only
      split
      next hempty =>
        exact .inl ⟨rfl, .inr (List.isEmpty_iff.mp hempty), ⟨fun h => (by cases h), fun h => (by cases h)⟩⟩
      next hempty =>
        have hids : listNamespaceVersions s.versions identifier ≠ [] := fun h => hempty (List.isEmpty_iff.mpr h)
        right
        split
        next hfailed =>
          rw [Bool.not_eq_true'] at hfailed
          refine .inl ⟨rfl, hids, rfl, ?_, .inl fun hreturn => ?_⟩
          · show (!(s.purgeSatellites _ f).2.isEmpty) = true
            rw [hfailed]
            rfl
          · rw [← purgeSatellites_failed] at hreturn
            rw [hreturn] at hfailed
            cases hfailed
        next hfailed =>
          have hreturn : s.SatellitesReturn f (listNamespaceVersions s.versions identifier) := by
            rw [← purgeSatellites_failed, ← List.isEmpty_iff]
            cases hnil : (s.purgeSatellites (listNamespaceVersions s.versions identifier) f).2.isEmpty with
            | true => rfl
            | false =>
                rw [hnil] at hfailed
                exact absurd rfl hfailed
          cases hrel : f.relational with
          | committed => exact .inr ⟨rfl, hids, rfl, hreturn, ⟨fun h => (by cases h), fun h => absurd rfl h⟩⟩
          | aborted => exact .inl ⟨rfl, hids, rfl, rfl, .inr rfl⟩
          | lost => exact .inr ⟨rfl, hids, rfl, hreturn, ⟨fun _ h => (by cases h), fun _ => rfl⟩⟩

/-- Once its rows are deleted a namespace has no versions. -/
theorem listNamespaceVersions_deleted (rows : List (VersionRow U)) (identifier : U) :
    listNamespaceVersions (rows.filter fun r => r.id ∉ listNamespaceVersions rows identifier) identifier = [] := by
  have hnone : (rows.filter fun r => r.id ∉ listNamespaceVersions rows identifier).filter
      (fun r => r.namespaceId = identifier ∨ r.id = identifier) = [] := by
    rw [List.filter_eq_nil_iff]
    intro r hr hmatch
    obtain ⟨hmem, hnot⟩ := List.mem_filter.mp hr
    apply of_decide_eq_true hnot
    refine List.mem_map.mpr ⟨r, List.mem_filter.mpr ⟨hmem, decide_eq_true ?_⟩, rfl⟩
    exact List.mem_map.mpr ⟨r, List.mem_filter.mpr ⟨hmem, hmatch⟩, rfl⟩
  unfold listNamespaceVersions at hnone ⊢
  dsimp only at hnone ⊢
  rw [hnone, List.map_eq_nil_iff, List.filter_eq_nil_iff]
  intro r _ hmem
  exact List.not_mem_nil (of_decide_eq_true hmem)

/-- A store after some purges. -/
def Shrinks (t₀ t : Satellite U) : Prop := t.purges = t₀.purges ∧ t.rows ⊆ t₀.rows

omit [DecidableEq U] in
theorem Shrinks.refl (t : Satellite U) : Shrinks t t := ⟨rfl, List.Subset.refl _⟩

theorem Shrinks.purge {t₀ t : Satellite U} (h : Shrinks t₀ t) (faults : U → Option (PurgeFault U))
    (ids : List U) : Shrinks t₀ (purge t faults ids).1 := by
  obtain ⟨hpurges, hrows⟩ := purge_frame faults ids t
  exact ⟨hpurges.trans h.1, fun r hr => h.2 (hrows hr)⟩

/-- The stores after some runs: rows have gone, and the versions are still there or own
nothing any more. -/
structure Progress (s₀ : NamespaceStores U) (identifier : U) (s : NamespaceStores U) : Prop where
  temporal : Shrinks s₀.temporal s.temporal
  vector : Shrinks s₀.vector s.vector
  graph : Shrinks s₀.graph s.graph
  unkeyed : s.unkeyed = s₀.unkeyed
  versions : s.versions = s₀.versions ∨
    (s.versions = s₀.versions.filter (fun r => r.id ∉ listNamespaceVersions s₀.versions identifier) ∧
      ∀ v ∈ listNamespaceVersions s₀.versions identifier, ¬s.Owns v)

theorem progress_start (s₀ : NamespaceStores U) (identifier : U) : Progress s₀ identifier s₀ :=
  ⟨.refl _, .refl _, .refl _, rfl, .inl rfl⟩

/-- A purged store has no row of a version that it could have kept. -/
theorem Shrinks.not_owned {t₀ t : Satellite U} (h : Shrinks t₀ t) {ids : List U}
    {faults : U → Option (PurgeFault U)} {v : U} (hv : v ∈ ids)
    (hreturn : t.purges = true → ∀ v ∈ ids, faults v = none)
    (hkept : t₀.purges = false → ∀ r ∈ t₀.rows, r.owner ≠ v) :
    ¬∃ r ∈ (Khora.purge t faults ids).1.rows, r.owner = v := by
  rintro ⟨r, hr, rfl⟩
  cases hp : t.purges with
  | true => exact purge_returned faults ids t hp (hreturn hp) r hr hv
  | false =>
      rw [purge_of_not hp] at hr
      exact hkept (h.1.symm.trans hp) r (h.2 hr) rfl

/-- After the last step of a run that purged everything nothing is owned. -/
theorem Progress.deleted (h : Progress s₀ identifier s)
    (hpurge : ∀ v ∈ listNamespaceVersions s₀.versions identifier, s₀.Purgeable v)
    (hsame : s.versions = s₀.versions)
    (hreturn : s.SatellitesReturn f (listNamespaceVersions s.versions identifier)) :
    let ids := listNamespaceVersions s.versions identifier
    Progress s₀ identifier ((s.purgeSatellites ids f).1.deleteRows ids) := by
  rw [hsame] at hreturn ⊢
  refine ⟨h.temporal.purge _ _, h.vector.purge _ _, h.graph.purge _ _, h.unkeyed, .inr ⟨?_, ?_⟩⟩
  · show s.versions.filter _ = _
    rw [hsame]
  · intro v hv
    obtain ⟨hkept, hunkeyed⟩ := hpurge v hv
    rintro (⟨r, hr, rfl⟩ | howns | howns | howns | ⟨r, hr, howner⟩)
    · exact of_decide_eq_true (List.mem_filter.mp hr).2 hv
    · exact h.temporal.not_owned hv (fun hp v hv => (hreturn v hv).1 hp)
        (hkept _ List.mem_cons_self) howns
    · exact h.vector.not_owned hv (fun hp v hv => (hreturn v hv).2.1 hp)
        (hkept _ (List.mem_cons_of_mem _ List.mem_cons_self)) howns
    · exact h.graph.not_owned hv (fun hp v hv => (hreturn v hv).2.2 hp)
        (hkept _ (List.mem_cons_of_mem _ (List.mem_cons_of_mem _ List.mem_cons_self))) howns
    · exact hunkeyed r (h.unkeyed ▸ hr) howner

theorem Progress.run (h : Progress s₀ identifier s)
    (hpurge : ∀ v ∈ listNamespaceVersions s₀.versions identifier, s₀.Purgeable v) (f : DeletionFaults U) :
    Progress s₀ identifier (s.deleteNamespace identifier f).1 := by
  have hthere : listNamespaceVersions s.versions identifier ≠ [] → s.versions = s₀.versions := by
    intro hne
    rcases h.versions with hsame | ⟨hgone, -⟩
    · exact hsame
    · rw [hgone, listNamespaceVersions_deleted] at hne
      exact absurd rfl hne
  rcases deleteNamespace_cases s identifier f with ⟨hrun, -⟩ | ⟨-, hids, hrun, -⟩ | ⟨-, hids, hrun, hreturn, -⟩
  · rw [hrun]
    exact h
  · rw [hrun]
    exact ⟨h.temporal.purge _ _, h.vector.purge _ _, h.graph.purge _ _, h.unkeyed, .inl (hthere hids)⟩
  · rw [hrun]
    exact h.deleted hpurge (hthere hids) hreturn

/-- A failure is reported, and only then. -/
theorem partialFailure_iff (s : NamespaceStores U) (identifier : U) (f : DeletionFaults U) :
    (s.deleteNamespace identifier f).2.partialFailure = true ↔ s.StepFails identifier f := by
  have hempty : s.SatellitesReturn f [] := fun v hv => by cases hv
  rcases deleteNamespace_cases s identifier f with
    ⟨-, hstop, hpart⟩ | ⟨-, hids, -, hpart, hfails⟩ | ⟨hlookup, hids, -, hreturn, hpart⟩
  · rw [hpart]
    refine ⟨.inl, ?_⟩
    rintro (hlookup | hfails | ⟨hids, -⟩)
    · exact hlookup
    · refine hstop.resolve_right fun hnil => hfails ?_
      rw [hnil]
      exact hempty
    · exact hstop.resolve_right hids
  · refine ⟨fun _ => .inr ?_, fun _ => hpart⟩
    rcases hfails with hfails | haborted
    · exact .inl hfails
    · rw [haborted]
      exact .inr ⟨hids, fun h => by cases h⟩
  · rw [hpart]
    refine ⟨fun h => .inr (.inr ⟨hids, h⟩), ?_⟩
    rintro (h | h | ⟨-, h⟩)
    · rw [hlookup] at h
      cases h
    · exact absurd hreturn h
    · exact h

/-- The rows are deleted only after purges that all returned. -/
theorem deleted_only_after (s : NamespaceStores U) (identifier : U) (f : DeletionFaults U)
    (h : (s.deleteNamespace identifier f).1.versions ≠ s.versions) :
    s.SatellitesReturn f (listNamespaceVersions s.versions identifier) := by
  rcases deleteNamespace_cases s identifier f with ⟨hrun, -⟩ | ⟨-, -, hrun, -⟩ | ⟨-, -, -, hreturn, -⟩
  · exact absurd (congrArg versions hrun) h
  · exact absurd (congrArg versions hrun) h
  · exact hreturn

/-- A run without failures ends with nothing owned. -/
theorem Progress.unfailing (h : Progress s₀ identifier s)
    (hpurge : ∀ v ∈ listNamespaceVersions s₀.versions identifier, s₀.Purgeable v)
    (hf : ¬s.StepFails identifier f) : ∀ v ∈ listNamespaceVersions s₀.versions identifier,
      ¬(s.deleteNamespace identifier f).1.Owns v ∧
        v ∉ (s.deleteNamespace identifier f).1.versions.map VersionRow.id := by
  have hgone : ∀ {s : NamespaceStores U}, s.versions = s₀.versions.filter
      (fun r => r.id ∉ listNamespaceVersions s₀.versions identifier) →
      ∀ v ∈ listNamespaceVersions s₀.versions identifier, v ∉ s.versions.map VersionRow.id := by
    intro s heq v hv hmem
    obtain ⟨r, hr, rfl⟩ := List.mem_map.mp hmem
    rw [heq] at hr
    exact of_decide_eq_true (List.mem_filter.mp hr).2 hv
  have hdone := h.run hpurge f
  intro v hv
  rcases hdone.versions with hsame | ⟨heq, hnone⟩
  · -- the rows are still there: the run has stopped before, so there was a failure
    exfalso
    have hne : listNamespaceVersions s₀.versions identifier ≠ [] := List.ne_nil_of_mem hv
    rcases deleteNamespace_cases s identifier f with ⟨hrun, hstop, -⟩ | ⟨-, -, -, hpart, -⟩ |
      ⟨-, hids, hrun, -, -⟩
    · rw [hrun] at hsame
      rw [hsame] at hstop
      exact hf (.inl (hstop.resolve_right hne))
    · exact hf ((partialFailure_iff s identifier f).mp hpart)
    · rw [hrun] at hsame
      have hnil := listNamespaceVersions_deleted s.versions identifier
      have hsame : s.versions.filter (fun r => r.id ∉ listNamespaceVersions s.versions identifier) =
        s₀.versions := hsame
      rw [hsame] at hnil
      exact hne hnil
  · exact ⟨hnone v hv, hgone heq v hv⟩

end NamespaceStores

/-- Two versions, chunks of both, a community of the first, and its graph nodes in a store without a
`delete_namespace`. -/
def unpurgedGraph : NamespaceStores ℕ where
  versions := [⟨1, 9⟩, ⟨2, 9⟩]
  relational := [⟨1, 0, 0⟩]
  unkeyed := [⟨1, 1, 7⟩]
  temporal := ⟨true, [⟨1, 0, 0⟩, ⟨2, 0, 1⟩]⟩
  vector := ⟨false, []⟩
  graph := ⟨false, [⟨1, 0, 5⟩]⟩

def noFaults : DeletionFaults ℕ := ⟨false, fun _ => none, fun _ => none, fun _ => none, .committed⟩

end Khora
