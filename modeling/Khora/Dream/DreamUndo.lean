import Khora.Dream.GraphConverge

/-!
# Undo of a dedupe in both stores

`dream_undo` reverses an op in the SQL store and then on the graph.  Both sides read the
snapshots of the undo record.  The SQL side replays them merge by merge; the graph side
keeps the last one of each edge, and uses it only for the edges that the mirror redirected.

* `undone_endpoints`, `unmirrorEdge_mirrorEdge` — what each side makes of one edge.
* `sameLive_undo_iff` — the two stores agree after the undo exactly if no live edge joins
  two absorbed entities, the graph has no edge for a closed relationship whose ends the op
  makes one, and the absorbed entities are entities of both stores or of neither.
-/

namespace Khora

variable {Id T : Type}

/-! ## Targets of the reverse mirror -/

structure UnmirrorTargets (Id : Type) where
  restoreEntityIds : List Id
  restoreRelationshipIds : List Id
  restoreEndpoints : List (RewriteEntry Id)
deriving DecidableEq

section Extract

variable [DecidableEq Id]

/-- The snapshot as an endpoint target. -/
def PreviousRelationship.toEntry (prev : PreviousRelationship Id) : RewriteEntry Id :=
  ⟨prev.id, prev.sourceEntityId, prev.targetEntityId, prev.relationshipType⟩

/-- `pre_endpoints.get(x)`: a later snapshot of an edge overrides an earlier one. -/
def preEndpoints (ms : List (MergeUndo Id)) (x : Id) : Option (RewriteEntry Id) :=
  ((ms.filter MergeUndo.applied).flatMap MergeUndo.previousRelationships).foldl
    (fun found prev => if prev.id = x then some prev.toEntry else found) none

/-- `extract_unmirror_targets` -/
def extractUnmirrorTargets (op : OpKind) (before : UndoBefore Id) : UnmirrorTargets Id :=
  let forward := extractMirrorTargets op before
  let rewrittenIds := (forward.rewriteRelationships.map RewriteEntry.relationshipId).dedup
  { restoreEntityIds := forward.retireEntityIds
    restoreRelationshipIds := forward.invalidateRelationshipIds
    restoreEndpoints := match op, before with
      | .vectorcypherDedupeEntities, .merges ms => rewrittenIds.filterMap (preEndpoints ms)
      | _, _ => [] }

end Extract

namespace MirrorGraph

variable [DecidableEq Id] (g : MirrorGraph Id T)

/-- `restore_entities_batch` clears the stamp of the retired nodes of the ids. -/
def restoreEntitiesBatch (ids : List Id) : MirrorGraph Id T :=
  { g with
    nodes := g.nodes.update (fun n => decide (n.id ∈ ids) && n.validUntil.isSome)
      (fun n => { n with validUntil := none }) fun _ => rfl }

/-- `restore_relationships_batch` clears the stamp of the invalidated edges of the ids. -/
def restoreRelationshipsBatch (ids : List Id) : MirrorGraph Id T :=
  { g with
    edges := g.edges.update (fun e => decide (e.id ∈ ids) && e.validUntil.isSome)
      (fun e => { e with validUntil := none }) fun _ => rfl }

/-- `restore_relationship_endpoints_batch`: the statement of the forward verb, with the
endpoints from before it. -/
def restoreRelationshipEndpointsBatch (rewrites : List (RewriteEntry Id)) : MirrorGraph Id T :=
  g.rewriteRelationshipEndpointsBatch rewrites

/-- `unmirror_targets` -/
def unmirrorTargets (targets : UnmirrorTargets Id) : MirrorGraph Id T :=
  ((g.restoreEntitiesBatch targets.restoreEntityIds).restoreRelationshipEndpointsBatch
    targets.restoreEndpoints).restoreRelationshipsBatch targets.restoreRelationshipIds

/-- The targets on one edge: the last endpoints that are set, then the stamp. -/
def unmirrorEdge (targets : UnmirrorTargets Id) (e : GraphEdge Id T) : GraphEdge Id T :=
  let moved := targets.restoreEndpoints.foldl (fun e rw => if e.id = rw.relationshipId then
    { e with sourceEntityId := rw.sourceEntityId, targetEntityId := rw.targetEntityId } else e) e
  if moved.id ∈ targets.restoreRelationshipIds then { moved with validUntil := none } else moved

theorem edges_unmirrorTargets (targets : UnmirrorTargets Id) :
    (g.unmirrorTargets targets).edges.rows = g.edges.rows.map (unmirrorEdge targets) := by
  simp only [unmirrorTargets, restoreRelationshipsBatch, restoreRelationshipEndpointsBatch,
    restoreEntitiesBatch, rewriteRelationshipEndpointsBatch]
  rw [Table.rows_update, Table.rows_foldl_update
    (fun (rw : RewriteEntry Id) (e : GraphEdge Id T) => decide (e.id = rw.relationshipId))
    (fun rw e => { e with sourceEntityId := rw.sourceEntityId, targetEntityId := rw.targetEntityId })
    fun _ _ => rfl, List.map_map]
  apply List.map_congr_left
  intro e _
  simp only [unmirrorEdge, Function.comp_apply, decide_eq_true_eq, Bool.and_eq_true]
  generalize targets.restoreEndpoints.foldl _ e = moved
  by_cases hmem : moved.id ∈ targets.restoreRelationshipIds
  · cases hv : moved.validUntil with
    | none =>
        rw [if_neg (by simp), if_pos hmem]
        exact GraphEdge.ext rfl rfl rfl hv
    | some t => rw [if_pos ⟨hmem, rfl⟩, if_pos hmem]
  · rw [if_neg (fun h => hmem h.1), if_neg hmem]

/-- The targets on one node. -/
def unmirrorNode (targets : UnmirrorTargets Id) (n : GraphNode Id T) : GraphNode Id T :=
  if n.id ∈ targets.restoreEntityIds ∧ n.validUntil.isSome then { n with validUntil := none } else n

theorem nodes_unmirrorTargets (targets : UnmirrorTargets Id) :
    (g.unmirrorTargets targets).nodes.rows = g.nodes.rows.map (unmirrorNode targets) := by
  simp only [unmirrorTargets, restoreRelationshipsBatch, restoreRelationshipEndpointsBatch,
    restoreEntitiesBatch, rewriteRelationshipEndpointsBatch]
  rw [Table.rows_update]
  apply List.map_congr_left
  intro n _
  simp [unmirrorNode]

omit g in
theorem unmirrorNode_spec (targets : UnmirrorTargets Id) (n : GraphNode Id T) :
    (unmirrorNode targets n).id = n.id ∧
      ((unmirrorNode targets n).validUntil = none ↔
        n.validUntil = none ∨ n.id ∈ targets.restoreEntityIds) := by
  unfold unmirrorNode
  split
  · rename_i h
    exact ⟨rfl, ⟨fun _ => .inr h.1, fun _ => rfl⟩⟩
  · rename_i h
    refine ⟨rfl, ⟨fun hnone => .inl hnone, ?_⟩⟩
    rintro (hnone | hmem)
    · exact hnone
    · by_contra hne
      exact h ⟨hmem, Option.isSome_iff_ne_none.mpr hne⟩

end MirrorGraph

/-- **What the reverse mirror does to an edge.** -/
theorem unmirrorEdge_spec [DecidableEq Id] (targets : UnmirrorTargets Id) (e : GraphEdge Id T) :
    let e' := MirrorGraph.unmirrorEdge targets e
    e'.id = e.id ∧
      (e'.validUntil = none ↔ e.validUntil = none ∨ e.id ∈ targets.restoreRelationshipIds) ∧
      ((∃ w ∈ targets.restoreEndpoints, w.relationshipId = e.id ∧
        e'.sourceEntityId = w.sourceEntityId ∧ e'.targetEntityId = w.targetEntityId) ∨
      (∀ w ∈ targets.restoreEndpoints, w.relationshipId ≠ e.id) ∧
        e'.sourceEntityId = e.sourceEntityId ∧ e'.targetEntityId = e.targetEntityId) := by
  intro e'
  obtain ⟨hid, hv, hends⟩ := rewrites_spec targets.restoreEndpoints e
  have hends' : e'.sourceEntityId = (targets.restoreEndpoints.foldl (fun e rw =>
        if e.id = rw.relationshipId then { e with
          sourceEntityId := rw.sourceEntityId, targetEntityId := rw.targetEntityId } else e)
        e).sourceEntityId ∧
      e'.targetEntityId = (targets.restoreEndpoints.foldl (fun e rw =>
        if e.id = rw.relationshipId then { e with
          sourceEntityId := rw.sourceEntityId, targetEntityId := rw.targetEntityId } else e)
        e).targetEntityId := by
    simp only [e', MirrorGraph.unmirrorEdge]
    split
    · exact ⟨rfl, rfl⟩
    · exact ⟨rfl, rfl⟩
  have hstamp : e'.id = e.id ∧
      (e'.validUntil = none ↔ e.validUntil = none ∨ e.id ∈ targets.restoreRelationshipIds) := by
    simp only [e', MirrorGraph.unmirrorEdge, hid]
    split
    · rename_i h
      exact ⟨rfl, ⟨fun _ => .inr h, fun _ => rfl⟩⟩
    · rename_i h
      refine ⟨hid, ?_⟩
      rw [hv]
      exact ⟨fun hnone => .inl hnone, fun h' => h'.resolve_right h⟩
  refine ⟨hstamp.1, hstamp.2, ?_⟩
  rw [hends'.1, hends'.2]
  rcases hends with ⟨w, hw, hrel, hw'⟩ | ⟨hno, heq⟩
  · exact .inl ⟨w, hw, hrel, hw'⟩
  · refine .inr ⟨hno, ?_, ?_⟩
    · rw [heq]
    · rw [heq]

/-! ## One relationship in the SQL store -/

section Undone

variable [DecidableEq Id] {opId : Id} {now : T} {c : Id} {as : List Id} {r : Relationship Id T}

/-- The row joins two entities that the op absorbs. -/
def Relationship.joins (as : List Id) (r : Relationship Id T) : Prop :=
  r.sourceEntityId ∈ as ∧ r.targetEntityId ∈ as ∧ r.sourceEntityId ≠ r.targetEntityId

/-- The row after the op and its undo. -/
def undone (opId : Id) (now : T) (c : Id) (as : List Id) (r : Relationship Id T) :
    Relationship Id T :=
  undoRows opId now c as r (applyRow opId now c as r)

theorem id_undoRows (as : List Id) : ∀ r r' : Relationship Id T,
    (undoRows opId now c as r r').id = r'.id := by
  induction as with
  | nil => exact fun _ _ => rfl
  | cons a as ih =>
      intro r r'
      rw [undoRows, ih, id_undoRow]

theorem id_undone (r : Relationship Id T) : (undone opId now c as r).id = r.id := by
  rw [undone, id_undoRows, id_applyRow]

omit [DecidableEq Id] in
theorem untouched_of_dead (h : r.live = false) : Untouched as r := by
  intro hlive
  rw [h] at hlive
  cases hlive

theorem untouched_of_not_meets (h : r.meets as = false) : Untouched as r := by
  intro _
  rw [← Bool.not_eq_true, meets_iff, not_or] at h
  exact h

theorem Untouched.undone (h : Untouched as r) : undone opId now c as r = r := by
  rw [Khora.undone, h.undoRows, h.applyRow]

/-- A live row is live after the op, or was invalidated by it. -/
theorem live_or_invalidatedBy_applyRow (hlive : r.live = true) :
    (applyRow opId now c as r).live = true ∨
      (applyRow opId now c as r).invalidatedBy = some opId := by
  induction as generalizing r with
  | nil => exact .inl hlive
  | cons a as ih =>
      have hcons : applyRow opId now c (a :: as) r = applyRow opId now c as (stepRow opId now c a r) := rfl
      rw [hcons]
      cases htouch : r.touches a with
      | false =>
          rw [stepRow_of_not_touches htouch]
          exact ih hlive
      | true =>
          cases hloops : r.loops c a with
          | true =>
              rw [applyRow_of_dead (not_live_of_loops htouch hloops), stepRow_of_loops htouch hloops]
              exact .inr rfl
          | false =>
              apply ih
              rw [stepRow_of_not_loops htouch hloops]
              exact hlive

/-- The undo of a live row ends live: it clears the stamp of the op where the op had set
it, and no other. -/
theorem live_undoRows (hlive : r.live = true) : ∀ {r' : Relationship Id T},
    r'.live = true ∨ (applyRow opId now c as r).live = false ∧ r'.invalidatedBy = some opId →
    (undoRows opId now c as r r').live = true := by
  induction as generalizing r with
  | nil =>
      rintro r' (h | ⟨h, -⟩)
      · exact h
      · rw [show applyRow opId now c [] r = r from rfl, hlive] at h
        cases h
  | cons a as ih =>
      intro r' h
      have hcons : applyRow opId now c (a :: as) r = applyRow opId now c as (stepRow opId now c a r) := rfl
      rw [hcons] at h
      rw [undoRows]
      cases htouch : r.touches a with
      | false =>
          rw [stepRow_of_not_touches htouch] at h ⊢
          rw [undoRow, htouch]
          exact ih hlive h
      | true =>
          cases hloops : r.loops c a with
          | true =>
              rw [(untouched_of_dead (not_live_of_loops htouch hloops)).undoRows, undoRow,
                if_pos htouch, if_pos hloops]
              unfold revalidated
              split
              · rfl
              · rename_i hby
                exact h.resolve_right fun h' => hby h'.2
          | false =>
              rw [undoRow, if_pos htouch, hloops]
              apply ih
              · rw [stepRow_of_not_loops htouch hloops]
                exact hlive
              · exact h

theorem live_undone (hlive : r.live = true) : (undone opId now c as r).live = true := by
  apply live_undoRows hlive
  cases h : (applyRow opId now c as r).live with
  | true => exact .inl rfl
  | false =>
      refine .inr ⟨rfl, (live_or_invalidatedBy_applyRow hlive).resolve_left fun h' => ?_⟩
      rw [h] at h'
      cases h'

/-- A row that meets the op, but does not join two absorbed entities, gets its own
endpoints, whatever it has become. -/
theorem endpoints_undoRows (hc : c ∉ as) (hlive : r.live = true) (hmeets : r.meets as = true)
    (hjoins : ¬ r.joins as) : ∀ r' : Relationship Id T,
    (undoRows opId now c as r r').sourceEntityId = r.sourceEntityId ∧
      (undoRows opId now c as r r').targetEntityId = r.targetEntityId := by
  induction as generalizing r with
  | nil => simp [Relationship.meets] at hmeets
  | cons a as ih =>
      intro r'
      rw [List.mem_cons, not_or] at hc
      rw [undoRows]
      cases htouch : r.touches a with
      | false =>
          obtain ⟨hs, ht⟩ := ends_of_not_touches hlive htouch
          rw [stepRow_of_not_touches htouch]
          apply ih hc.2 hlive
          · simpa [Relationship.meets, hs, ht] using hmeets
          · rintro ⟨hs', ht', hne⟩
            exact hjoins ⟨List.mem_cons_of_mem _ hs', List.mem_cons_of_mem _ ht', hne⟩
      | true =>
          cases hloops : r.loops c a with
          | true =>
              rw [(untouched_of_dead (not_live_of_loops htouch hloops)).undoRows, undoRow,
                if_pos htouch, if_pos hloops]
              unfold revalidated
              split
              · exact ⟨rfl, rfl⟩
              · exact ⟨rfl, rfl⟩
          | false =>
              -- one end is `a`, and no later merge absorbs the other
              have hrest : Untouched as (stepRow opId now c a r) := by
                intro _
                rw [stepRow_of_not_loops htouch hloops]
                rcases ends_of_not_loops htouch hloops with ⟨hs, hta, -⟩ | ⟨ht, hsa, -⟩
                · refine ⟨by simpa [redirect, hs] using hc.2, fun ht => hjoins ⟨by simp [hs], ?_, ?_⟩⟩
                  · simp only [redirect, if_neg hta] at ht
                    exact List.mem_cons_of_mem _ ht
                  · rw [hs]
                    exact Ne.symm hta
                · refine ⟨fun hs => hjoins ⟨?_, by simp [ht], ?_⟩, by simpa [redirect, ht] using hc.2⟩
                  · simp only [redirect, if_neg hsa] at hs
                    exact List.mem_cons_of_mem _ hs
                  · rw [ht]
                    exact hsa
              rw [hrest.undoRows, undoRow, if_pos htouch, hloops]
              exact ⟨rfl, rfl⟩

/-- A row that joins two absorbed entities gets the canonical one at an end. -/
theorem endpoints_undoRows_of_joins (hc : c ∉ as) (hn : as.Nodup) (hlive : r.live = true)
    (hjoins : r.joins as) (r' : Relationship Id T) :
    (undoRows opId now c as r r').sourceEntityId ≠ r.sourceEntityId ∨
      (undoRows opId now c as r r').targetEntityId ≠ r.targetEntityId := by
  induction as generalizing r r' with
  | nil => cases hjoins.1
  | cons a as ih =>
      have hc' := hc
      rw [List.mem_cons, not_or] at hc'
      rw [List.nodup_cons] at hn
      obtain ⟨hs, ht, hne⟩ := hjoins
      rw [undoRows]
      cases htouch : r.touches a with
      | false =>
          obtain ⟨hsa, hta⟩ := ends_of_not_touches hlive htouch
          rw [stepRow_of_not_touches htouch]
          exact ih hc'.2 hn.2 hlive
            ⟨(List.mem_cons.mp hs).resolve_left hsa, (List.mem_cons.mp ht).resolve_left hta, hne⟩ _
      | true =>
          have hloops : r.loops c a = false := by
            rw [← Bool.not_eq_true]
            intro hloops
            rcases ends_of_loops htouch hloops with ⟨hsa, hta | htc⟩ | ⟨-, hsc⟩
            · exact hne (hsa.trans hta.symm)
            · exact hc (htc ▸ ht)
            · exact hc (hsc ▸ hs)
          have hstep := @stepRow_of_not_loops _ _ _ c a opId now r htouch hloops
          have hlive' : (stepRow opId now c a r).live = true := by
            rw [hstep]
            exact hlive
          rcases ends_of_not_loops htouch hloops with ⟨hsa, hta, -⟩ | ⟨hta, hsa, -⟩
          · have hb : r.targetEntityId ∈ as := (List.mem_cons.mp ht).resolve_left hta
            refine .inl ?_
            rw [(undoRows_canonical hc'.2 hn.2 hb hlive'
              (.inl ⟨by simp [hstep, redirect, hsa], by simp [hstep, redirect, hta]⟩) _).1]
            simp only [hstep, redirect, hsa]
            exact hc'.1
          · have hb : r.sourceEntityId ∈ as := (List.mem_cons.mp hs).resolve_left hsa
            refine .inr ?_
            rw [(undoRows_canonical hc'.2 hn.2 hb hlive'
              (.inr ⟨by simp [hstep, redirect, hsa], by simp [hstep, redirect, hta]⟩) _).2]
            simp only [hstep, redirect, hta]
            exact hc'.1

/-- **A live row comes back to its endpoints exactly if it does not join two absorbed
entities.** -/
theorem undone_endpoints (hc : c ∉ as) (hn : as.Nodup) (hlive : r.live = true) :
    (undone opId now c as r).sourceEntityId = r.sourceEntityId ∧
      (undone opId now c as r).targetEntityId = r.targetEntityId ↔ ¬ r.joins as := by
  constructor
  · rintro ⟨hs, ht⟩ hjoins
    rcases endpoints_undoRows_of_joins hc hn hlive hjoins (applyRow opId now c as r) with h | h
    · exact h hs
    · exact h ht
  · intro hjoins
    cases hmeets : r.meets as with
    | true => exact endpoints_undoRows hc hlive hmeets hjoins _
    | false =>
        rw [(untouched_of_not_meets hmeets).undone]
        exact ⟨rfl, rfl⟩

end Undone

/-! ## One edge of the graph -/

section Unmirrored

variable [DecidableEq Id] {opId : Id} {now : T} {c : Id} {band : VerifierBand}
  {judge : MergeEntry Id → VerifierDecision}

theorem foldl_preEndpoints {prevs : List (PreviousRelationship Id)} {x : Id} :
    ∀ {found : Option (RewriteEntry Id)},
    let out := prevs.foldl (fun found prev => if prev.id = x then some prev.toEntry else found) found
    (∃ prev ∈ prevs, prev.id = x ∧ out = some prev.toEntry) ∨
      (∀ prev ∈ prevs, prev.id ≠ x) ∧ out = found := by
  induction prevs with
  | nil => exact .inr ⟨fun _ h => (by cases h), rfl⟩
  | cons prev prevs ih =>
      intro found
      simp only [List.foldl_cons]
      rcases @ih (if prev.id = x then some prev.toEntry else found) with
        ⟨prev', hmem, hid, hout⟩ | ⟨hno, hout⟩
      · exact .inl ⟨prev', List.mem_cons_of_mem _ hmem, hid, hout⟩
      · by_cases h : prev.id = x
        · rw [if_pos h] at hout
          exact .inl ⟨prev, List.mem_cons_self, h, by simpa only [if_pos h] using hout⟩
        · rw [if_neg h] at hout
          refine .inr ⟨fun prev' hmem => ?_, by simpa only [if_neg h] using hout⟩
          rcases List.mem_cons.mp hmem with rfl | hmem
          · exact h
          · exact hno prev' hmem

/-- The snapshots of a record are those of the forms of each row. -/
theorem mem_snapshots (entries : List (MergeEntry Id)) : ∀ s : DreamTables Id T,
    (∀ m ∈ entries, m.canonicalId = c) → ∀ prev,
    prev ∈ ((applyMerges band judge opId now entries s).2.filter MergeUndo.applied).flatMap
        MergeUndo.previousRelationships ↔
      ∃ r ∈ s.relationships.rows,
        ∃ row ∈ rowForms opId now c (absorbedIds band judge entries) r, prev = row.snapshot := by
  induction entries with
  | nil => simp [applyMerges, absorbedIds, rowForms]
  | cons entry entries ih =>
      intro s hc prev
      have hentry := hc entry List.mem_cons_self
      have hrest : ∀ m ∈ entries, m.canonicalId = c := fun m hm => hc m (List.mem_cons_of_mem _ hm)
      rw [absorbedIds_cons]
      rcases @applyMerges_cons _ _ _ opId now band judge entry entries s with ⟨hauth, heq⟩ | ⟨hauth, heq⟩
      · have hmem := ih (applyMerge opId now (maybeRunVerifier band judge entry) entry s).1 hrest prev
        rw [rows_applyMerge, hentry] at hmem
        rw [heq, hauth, if_pos rfl]
        simp only
        rw [List.filter_cons_of_pos rfl, List.flatMap_cons, List.mem_append, hmem]
        simp only [mem_rowForms_cons, List.mem_map]
        constructor
        · rintro (hhere | ⟨_, ⟨r, hr, rfl⟩, row, hrow, hprev⟩)
          · obtain ⟨r, hr, rfl⟩ := List.mem_map.mp hhere
            obtain ⟨hr, htouch⟩ := List.mem_filter.mp hr
            exact ⟨r, hr, r, .inl ⟨htouch, rfl⟩, rfl⟩
          · exact ⟨r, hr, row, .inr hrow, hprev⟩
        · rintro ⟨r, hr, row, ⟨htouch, rfl⟩ | hrow, hprev⟩
          · exact .inl (List.mem_map.mpr ⟨_, List.mem_filter.mpr ⟨hr, htouch⟩, hprev.symm⟩)
          · exact .inr ⟨_, ⟨r, hr, rfl⟩, row, hrow, hprev⟩
      · rw [heq, hauth]
        simp only
        rw [List.filter_cons_of_neg (by simp)]
        exact ih s hrest prev

/-- A row that does not join two absorbed entities is captured as it was. -/
theorem rowForms_endpoints {as : List Id} (hc : c ∉ as) {row : Relationship Id T} :
    ∀ {r : Relationship Id T}, ¬ r.joins as → row ∈ rowForms opId now c as r →
      row.sourceEntityId = r.sourceEntityId ∧ row.targetEntityId = r.targetEntityId := by
  induction as with
  | nil => exact fun _ h => (by cases h)
  | cons a as ih =>
      intro r hjoins hrow
      rw [List.mem_cons, not_or] at hc
      rcases mem_rowForms_cons.mp hrow with ⟨-, rfl⟩ | hrow
      · exact ⟨rfl, rfl⟩
      · have hsplit : (stepRow opId now c a r).live = true ∧
            (stepRow opId now c a r).meets as = true := by
          obtain ⟨hlive, hmeets, -⟩ := of_mem_rowForms (f := fun _ => c) (fun _ _ _ => rfl) hrow
          exact ⟨hlive, hmeets⟩
        cases htouch : r.touches a with
        | false =>
            rw [stepRow_of_not_touches htouch] at hrow
            apply ih hc.2 _ hrow
            rintro ⟨hs, ht, hne⟩
            exact hjoins ⟨List.mem_cons_of_mem _ hs, List.mem_cons_of_mem _ ht, hne⟩
        | true =>
            exfalso
            cases hloops : r.loops c a with
            | true =>
                rw [not_live_of_loops htouch hloops] at hsplit
                cases hsplit.1
            | false =>
                rw [stepRow_of_not_loops htouch hloops, meets_iff] at hsplit
                rcases ends_of_not_loops htouch hloops with ⟨hs, hta, -⟩ | ⟨ht, hsa, -⟩
                · rcases hsplit.2 with h | h
                  · simp only [redirect, if_pos hs] at h
                    exact hc.2 h
                  · simp only [redirect, if_neg hta] at h
                    exact hjoins ⟨by simp [hs], List.mem_cons_of_mem _ h, fun heq => hta (heq ▸ hs)⟩
                · rcases hsplit.2 with h | h
                  · simp only [redirect, if_neg hsa] at h
                    exact hjoins ⟨List.mem_cons_of_mem _ h, by simp [ht], fun heq => hsa (heq.trans ht)⟩
                  · simp only [redirect, if_pos ht] at h
                    exact hc.2 h

theorem Relationship.joins.collapses {as : List Id} {r : Relationship Id T} (h : r.joins as) :
    r.collapses c as = true := by
  rw [collapses_eq, Bool.and_eq_true, decide_eq_true_eq, meets_iff]
  exact ⟨.inl h.1, by rw [canonicalOf_of_mem h.1, canonicalOf_of_mem h.2.1]⟩

/-- `extract_unmirror_targets` of the undo record of the op. -/
def unmirrorTargetsOf (band : VerifierBand) (judge : MergeEntry Id → VerifierDecision) (now : T)
    (op : DedupeOp Id) (s : DreamTables Id T) : UnmirrorTargets Id :=
  extractUnmirrorTargets .vectorcypherDedupeEntities (dedupeUndo band judge now op s)

theorem mem_restoreEndpoints {op : DedupeOp Id} {s : DreamTables Id T} {w : RewriteEntry Id} :
    w ∈ (unmirrorTargetsOf band judge now op s).restoreEndpoints ↔
      ∃ w' ∈ (targetsOf band judge now op s).rewriteRelationships,
        preEndpoints (applyMerges band judge op.opId now op.merges s).2 w'.relationshipId = some w := by
  show w ∈ List.filterMap _ (List.dedup _) ↔ _
  simp only [List.mem_filterMap, List.mem_dedup, List.mem_map]
  constructor
  · rintro ⟨_, ⟨w', hw', rfl⟩, hpre⟩
    exact ⟨w', hw', hpre⟩
  · rintro ⟨w', hw', hpre⟩
    exact ⟨_, ⟨w', hw', rfl⟩, hpre⟩

section Op

variable {op : DedupeOp Id} {s : DreamTables Id T} (hop : op.Coherent c)
include hop

/-- A redirected edge is one of a row that the op keeps, and whose snapshots it has. -/
theorem of_mem_rewriteRelationships {w : RewriteEntry Id}
    (hw : w ∈ (targetsOf band judge now op s).rewriteRelationships) :
    ∃ r ∈ s.relationships.rows, r.id = w.relationshipId ∧
      r.collapses c (absorbedIds band judge op.merges) = false ∧
      r ∈ rowForms op.opId now c (absorbedIds band judge op.merges) r := by
  have hf : ∀ a ∈ absorbedIds band judge op.merges, ∀ x,
      canonicalOf c (absorbedIds band judge op.merges) (redirect c a x) =
        canonicalOf c (absorbedIds band judge op.merges) x := fun a ha => canonicalOf_redirect ha
  rw [targetsOf_eq hop.canonical] at hw
  obtain ⟨r, hr, row, hrow, hne, -, rfl⟩ :=
    ((@mem_targets _ _ _ op.opId now c band judge _ op.merges s hop.canonical hf).2 w).mp hw
  obtain ⟨hlive, hmeets, hid, hs, ht⟩ := of_mem_rowForms hf hrow
  refine ⟨r, hr, hid.symm, ?_, self_mem_rowForms hlive hmeets⟩
  rw [collapses_eq, hmeets, Bool.true_and, decide_eq_false_iff_not, ← hs, ← ht]
  exact hne

/-- The endpoints that the undo sets on the edge of a row are those of the row. -/
theorem restoreEndpoints_of_row {r : Relationship Id T} (hr : r ∈ s.relationships.rows)
    {w : RewriteEntry Id} (hw : w ∈ (unmirrorTargetsOf band judge now op s).restoreEndpoints)
    (hid : w.relationshipId = r.id) :
    w.sourceEntityId = r.sourceEntityId ∧ w.targetEntityId = r.targetEntityId := by
  have hsub : (absorbedIds band judge op.merges).Sublist (op.merges.map MergeEntry.absorbedId) :=
    List.filter_sublist.map _
  have hc : c ∉ absorbedIds band judge op.merges := fun h => hop.other (hsub.subset h)
  obtain ⟨w', hw', hpre⟩ := mem_restoreEndpoints.mp hw
  rcases @foldl_preEndpoints Id _ _ _ none with ⟨prev, hprev, hprevid, hout⟩ | ⟨-, hout⟩
  · rw [preEndpoints, hout, Option.some.injEq] at hpre
    subst hpre
    obtain ⟨r₁, hr₁, row, hrow, rfl⟩ := (mem_snapshots op.merges s hop.canonical prev).mp hprev
    obtain ⟨-, -, hrowid, -⟩ := of_mem_rowForms (f := fun _ => c) (fun _ _ _ => rfl) hrow
    have hrr := List.inj_on_of_nodup_map s.relationships.nodup hr₁ hr (hrowid.symm.trans hid)
    subst hrr
    obtain ⟨r₂, hr₂, hid₂, hcol, -⟩ := of_mem_rewriteRelationships hop hw'
    have hrr := List.inj_on_of_nodup_map s.relationships.nodup hr₂ hr₁
      (hid₂.trans (hprevid.symm.trans hid))
    subst hrr
    apply rowForms_endpoints hc (fun hjoins => ?_) hrow
    rw [hjoins.collapses] at hcol
    cases hcol
  · rw [preEndpoints, hout] at hpre
    cases hpre

/-- Every redirected edge has endpoints to go back to. -/
theorem exists_restoreEndpoint {w : RewriteEntry Id}
    (hw : w ∈ (targetsOf band judge now op s).rewriteRelationships) :
    ∃ w' ∈ (unmirrorTargetsOf band judge now op s).restoreEndpoints,
      w'.relationshipId = w.relationshipId := by
  obtain ⟨r, hr, hid, -, hform⟩ := of_mem_rewriteRelationships hop hw
  have hsnap := (mem_snapshots op.merges s hop.canonical r.snapshot).mpr ⟨r, hr, r, hform, rfl⟩
  rcases @foldl_preEndpoints _ _ (((applyMerges band judge op.opId now op.merges s).2.filter
      MergeUndo.applied).flatMap MergeUndo.previousRelationships) w.relationshipId none with
    ⟨prev, -, hprevid, hout⟩ | ⟨hno, -⟩
  · exact ⟨prev.toEntry, mem_restoreEndpoints.mpr ⟨w, hw, hout⟩, hprevid⟩
  · exact absurd hid (hno _ hsnap)

/-- **The reverse mirror undoes the mirror on the edge of a live row.** -/
theorem unmirrorEdge_mirrorEdge (stamp : T) {r : Relationship Id T}
    (hr : r ∈ s.relationships.rows) :
    let e : GraphEdge Id T := ⟨r.id, r.sourceEntityId, r.targetEntityId, none⟩
    MirrorGraph.unmirrorEdge (unmirrorTargetsOf band judge now op s)
      (MirrorGraph.mirrorEdge (targetsOf band judge now op s) stamp e) = e := by
  intro e
  obtain ⟨hid, hv, hends⟩ := mirrorEdge_spec (targetsOf band judge now op s) stamp e
  obtain ⟨hid', hv', hends'⟩ := unmirrorEdge_spec (unmirrorTargetsOf band judge now op s)
    (MirrorGraph.mirrorEdge (targetsOf band judge now op s) stamp e)
  have hnone : (MirrorGraph.unmirrorEdge (unmirrorTargetsOf band judge now op s)
      (MirrorGraph.mirrorEdge (targetsOf band judge now op s) stamp e)).validUntil = none := by
    rw [hv', hv]
    by_cases hmem : e.id ∈ (targetsOf band judge now op s).invalidateRelationshipIds
    · exact .inr (by rw [hid]; exact hmem)
    · exact .inl ⟨rfl, hmem⟩
  have hsame : (MirrorGraph.unmirrorEdge (unmirrorTargetsOf band judge now op s)
        (MirrorGraph.mirrorEdge (targetsOf band judge now op s) stamp e)).sourceEntityId =
        r.sourceEntityId ∧
      (MirrorGraph.unmirrorEdge (unmirrorTargetsOf band judge now op s)
        (MirrorGraph.mirrorEdge (targetsOf band judge now op s) stamp e)).targetEntityId =
        r.targetEntityId := by
    rcases hends' with ⟨w, hw, hwid, hs, ht⟩ | ⟨hno, hs, ht⟩
    · obtain ⟨hs', ht'⟩ := restoreEndpoints_of_row hop hr hw (hwid.trans hid)
      exact ⟨hs.trans hs', ht.trans ht'⟩
    · rcases hends with ⟨w, hw, hwid, -⟩ | ⟨-, hs', ht'⟩
      · -- the mirror redirected the edge: the record has endpoints for it
        obtain ⟨w', hw', hwid'⟩ := exists_restoreEndpoint hop hw
        exact absurd (hwid'.trans (hwid.trans hid.symm)) (hno w' hw')
      · exact ⟨hs.trans hs', ht.trans ht'⟩
  exact GraphEdge.ext (hid'.trans hid) hsame.1 hsame.2 hnone

/-- The edges that the mirror invalidates are those of live rows that collapse. -/
theorem row_of_mem_invalidated {x : Id}
    (hx : x ∈ (targetsOf band judge now op s).invalidateRelationshipIds) :
    ∃ r ∈ s.relationships.rows, r.id = x ∧ r.live = true ∧
      r.collapses c (absorbedIds band judge op.merges) = true := by
  have hf : ∀ a ∈ absorbedIds band judge op.merges, ∀ x,
      canonicalOf c (absorbedIds band judge op.merges) (redirect c a x) =
        canonicalOf c (absorbedIds band judge op.merges) x := fun a ha => canonicalOf_redirect ha
  have hx' := hx
  rw [targetsOf_eq hop.canonical] at hx'
  obtain ⟨r, hr, rfl, -⟩ :=
    ((@mem_targets _ _ _ op.opId now c band judge _ op.merges s hop.canonical hf).1 x).mp hx'
  exact ⟨r, hr, rfl, (mem_invalidated_iff hop.canonical hr).mp hx⟩

end Op

end Unmirrored

/-! ## Both stores -/

section BothStores

variable [DecidableEq Id]

/-- The SQL store after the op and its undo. -/
def undoneSql (band : VerifierBand) (judge : MergeEntry Id → VerifierDecision) (now : T)
    (op : DedupeOp Id) (s : SqlState Id T) : SqlState Id T :=
  let (tables, undo) := applyVectorcypherDedupeEntities band judge now op s.tables
  { s with tables := (reverseVectorcypherDedupeEntities undo tables).1 }

/-- The graph after the mirror of the op and the reverse mirror. -/
def undoneGraph (band : VerifierBand) (judge : MergeEntry Id → VerifierDecision) (now : T)
    (op : DedupeOp Id) (s : SqlState Id T) (stamp : T) (g : MirrorGraph Id T) : MirrorGraph Id T :=
  (g.applyMirrorTargets (targetsOf band judge now op s.tables) stamp []).unmirrorTargets
    (unmirrorTargetsOf band judge now op s.tables)

/-- What the stores must meet for the two undos to agree. -/
structure Unmirrorable (s : SqlState Id T) (g : MirrorGraph Id T) (c : Id) (as : List Id) : Prop where
  joins : ∀ r ∈ s.tables.relationships.rows, r.shown s.closed = true → ¬ r.joins as
  closed : ∀ r ∈ s.tables.relationships.rows, r.live = true → s.closed r.id = true →
    r.collapses c as = true → r.id ∉ g.edges.rows.map GraphEdge.id
  entities : ∀ a ∈ as, a ∈ s.tables.entities.rows.map Entity.id ↔ a ∈ g.nodes.rows.map GraphNode.id

variable {band : VerifierBand} {judge : MergeEntry Id → VerifierDecision} {now : T}
  {op : DedupeOp Id} {c : Id} {s : SqlState Id T} {g : MirrorGraph Id T} {stamp : T}

omit [DecidableEq Id] in
theorem mem_sqlEdges {edge : Id × Id × Id} :
    edge ∈ liveEdges s.closed s.tables.relationships ↔
      ∃ r ∈ s.tables.relationships.rows, r.shown s.closed = true ∧
        (r.id, r.sourceEntityId, r.targetEntityId) = edge := by
  simp only [liveEdges, List.mem_map, List.mem_filter, and_assoc]

omit [DecidableEq Id] in
theorem mem_graphEdges {edge : Id × Id × Id} :
    edge ∈ g.liveEdges ↔ ∃ e ∈ g.edges.rows, e.validUntil = none ∧
      (e.id, e.sourceEntityId, e.targetEntityId) = edge := by
  simp only [MirrorGraph.liveEdges, List.mem_map, List.mem_filter, Option.isNone_iff_eq_none,
    and_assoc]

omit [DecidableEq Id] in
theorem absorbed_nodup (hop : op.Coherent c) :
    c ∉ absorbedIds band judge op.merges ∧ (absorbedIds band judge op.merges).Nodup := by
  have hsub : (absorbedIds band judge op.merges).Sublist (op.merges.map MergeEntry.absorbedId) :=
    List.filter_sublist.map _
  exact ⟨fun h => hop.other (hsub.subset h), hsub.nodup hop.distinct⟩

theorem rows_undoneSql (hop : op.Coherent c) :
    (undoneSql band judge now op s).tables.relationships.rows =
      s.tables.relationships.rows.map
        (undone op.opId now c (absorbedIds band judge op.merges)) ∧
    (undoneSql band judge now op s).tables.entities.rows =
      s.tables.entities.rows.map fun e =>
        if e.id ∈ absorbedIds band judge op.merges then { e with validUntil := none } else e := by
  obtain ⟨hr, he⟩ := @rows_applyMerges _ _ _ op.opId now c band judge op.merges s.tables hop.canonical
  obtain ⟨hr', he'⟩ := @rows_reverseMerges _ _ _ op.opId now c band judge _
    s.tables.relationships.nodup op.merges s.tables
    ((applyMerges band judge op.opId now op.merges s.tables).1, false) id _ hop.canonical
    (fun _ => rfl) (id_applyRow _) (List.map_id _).symm hr
  refine ⟨hr', he'.trans ?_⟩
  rw [he, List.map_map]
  apply List.map_congr_left
  intro e _
  simp only [Function.comp_apply]
  rw [foldl_revive, foldl_retire]
  by_cases hmem : e.id ∈ absorbedIds band judge op.merges
  · cases hv : e.validUntil with
    | none => simp [hmem]
    | some t => simp [hmem]
  · simp [hmem]

/-- The live edges of the SQL store after the undo: those from before, with the endpoints
that the undo gives them. -/
theorem mem_undoneSql_liveEdges (hop : op.Coherent c) {edge : Id × Id × Id} :
    edge ∈ liveEdges (undoneSql band judge now op s).closed
        (undoneSql band judge now op s).tables.relationships ↔
      ∃ r ∈ s.tables.relationships.rows, r.shown s.closed = true ∧
        (r.id, (undone op.opId now c (absorbedIds band judge op.merges) r).sourceEntityId,
          (undone op.opId now c (absorbedIds band judge op.merges) r).targetEntityId) = edge := by
  have hshown : ∀ r : Relationship Id T,
      (undone op.opId now c (absorbedIds band judge op.merges) r).shown s.closed = r.shown s.closed := by
    intro r
    cases hlive : r.live with
    | false => rw [(untouched_of_dead hlive).undone]
    | true => rw [Relationship.shown, Relationship.shown, live_undone hlive, hlive, id_undone]
  rw [mem_sqlEdges, (rows_undoneSql hop).1]
  simp only [List.mem_map, exists_exists_and_eq_and]
  show (∃ r ∈ _, (undone _ _ _ _ r).shown s.closed = true ∧ _) ↔ _
  simp only [hshown, id_undone]

/-- The edges of the graph after the undo. -/
theorem edges_undoneGraph : (undoneGraph band judge now op s stamp g).edges.rows =
    g.edges.rows.map fun e => MirrorGraph.unmirrorEdge (unmirrorTargetsOf band judge now op s.tables)
      (MirrorGraph.mirrorEdge (targetsOf band judge now op s.tables) stamp e) := by
  rw [undoneGraph, MirrorGraph.edges_unmirrorTargets, MirrorGraph.edges_applyMirrorTargets,
    List.map_map]
  rfl

/-- The live edges of the graph after the undo: those from before, and those of a closed
row whose ends the op makes one. -/
theorem mem_undoneGraph_liveEdges (hop : op.Coherent c)
    (hedges : ∀ edge, edge ∈ liveEdges s.closed s.tables.relationships ↔ edge ∈ g.liveEdges)
    (hclosed : ∀ r ∈ s.tables.relationships.rows, r.live = true → s.closed r.id = true →
      r.collapses c (absorbedIds band judge op.merges) = true →
      r.id ∉ g.edges.rows.map GraphEdge.id) {edge : Id × Id × Id} :
    edge ∈ (undoneGraph band judge now op s stamp g).liveEdges ↔ edge ∈ g.liveEdges := by
  have hback : ∀ e ∈ g.edges.rows, e.validUntil = none →
      MirrorGraph.unmirrorEdge (unmirrorTargetsOf band judge now op s.tables)
        (MirrorGraph.mirrorEdge (targetsOf band judge now op s.tables) stamp e) = e := by
    rintro ⟨i, x, y, v⟩ he hv
    subst hv
    obtain ⟨r, hr, -, heq⟩ :=
      mem_sqlEdges.mp ((hedges (i, x, y)).mpr (mem_graphEdges.mpr ⟨_, he, rfl, rfl⟩))
    cases heq
    exact unmirrorEdge_mirrorEdge hop stamp hr
  have hdead : ∀ e ∈ g.edges.rows, e.validUntil ≠ none →
      (MirrorGraph.unmirrorEdge (unmirrorTargetsOf band judge now op s.tables)
        (MirrorGraph.mirrorEdge (targetsOf band judge now op s.tables) stamp e)).validUntil ≠ none := by
    intro e he hv hnone
    obtain ⟨hid, hmirror, -⟩ := mirrorEdge_spec (targetsOf band judge now op s.tables) stamp e
    rcases (unmirrorEdge_spec _ _).2.1.mp hnone with h | h
    · exact hv (hmirror.mp h).1
    · -- the edge of a live row: shown, and so live in the graph, or closed
      rw [hid] at h
      obtain ⟨r, hr, hrid, hlive, hcol⟩ := row_of_mem_invalidated hop h
      cases hcl : s.closed r.id with
      | true => exact hclosed r hr hlive hcl hcol (hrid ▸ List.mem_map.mpr ⟨e, he, rfl⟩)
      | false =>
          obtain ⟨e', he', hv', heq⟩ := mem_graphEdges.mp ((hedges _).mp
            (mem_sqlEdges.mpr ⟨r, hr, shown_iff.mpr ⟨hlive, hcl⟩, rfl⟩))
          have hee : e' = e := List.inj_on_of_nodup_map g.edges.nodup he' he
            ((congrArg Prod.fst heq).trans hrid)
          exact hv (hee ▸ hv')
  rw [mem_graphEdges, mem_graphEdges, edges_undoneGraph]
  simp only [List.mem_map, exists_exists_and_eq_and]
  constructor
  · rintro ⟨e, he, hv, heq⟩
    have hlive : e.validUntil = none := by
      by_contra h
      exact hdead e he h hv
    rw [hback e he hlive] at heq
    exact ⟨e, he, hlive, heq⟩
  · rintro ⟨e, he, hv, heq⟩
    exact ⟨e, he, by rw [hback e he hv]; exact hv, by rw [hback e he hv]; exact heq⟩

/-- The live entities of the SQL store after the undo: with those that the op absorbed. -/
theorem mem_undoneSql_liveEntities (hop : op.Coherent c) {x : Id} :
    x ∈ (undoneSql band judge now op s).liveEntities ↔ x ∈ s.liveEntities ∨
      x ∈ absorbedIds band judge op.merges ∧ x ∈ s.tables.entities.rows.map Entity.id := by
  simp only [SqlState.liveEntities, (rows_undoneSql hop).2, List.mem_map, List.mem_filter,
    Option.isNone_iff_eq_none]
  constructor
  · rintro ⟨_, ⟨⟨e, he, rfl⟩, hv⟩, rfl⟩
    by_cases hmem : e.id ∈ absorbedIds band judge op.merges
    · rw [if_pos hmem]
      exact .inr ⟨hmem, e, he, rfl⟩
    · rw [if_neg hmem] at hv ⊢
      exact .inl ⟨e, ⟨he, hv⟩, rfl⟩
  · rintro (⟨e, ⟨he, hv⟩, rfl⟩ | ⟨hmem, e, he, rfl⟩)
    · refine ⟨e, ⟨⟨e, he, ?_⟩, hv⟩, rfl⟩
      split
      · cases e
        cases hv
        rfl
      · rfl
    · exact ⟨{ e with validUntil := none }, ⟨⟨e, he, if_pos hmem⟩, rfl⟩, rfl⟩

/-- The live entities of the graph after the undo, likewise. -/
theorem mem_undoneGraph_liveEntities (hop : op.Coherent c) {x : Id} :
    x ∈ (undoneGraph band judge now op s stamp g).liveEntities ↔ x ∈ g.liveEntities ∨
      x ∈ absorbedIds band judge op.merges ∧ x ∈ g.nodes.rows.map GraphNode.id := by
  have hretire : (targetsOf band judge now op s.tables).retireEntityIds =
      absorbedIds band judge op.merges := by
    rw [targetsOf_eq hop.canonical]
  have hrestore : (unmirrorTargetsOf band judge now op s.tables).restoreEntityIds =
      absorbedIds band judge op.merges := hretire
  have hspec : ∀ n : GraphNode Id T,
      let n' := MirrorGraph.unmirrorNode (unmirrorTargetsOf band judge now op s.tables)
        (MirrorGraph.mirrorNode (targetsOf band judge now op s.tables) stamp n)
      n'.id = n.id ∧ (n'.validUntil = none ↔
        n.validUntil = none ∨ n.id ∈ absorbedIds band judge op.merges) := by
    intro n
    obtain ⟨hid, hv⟩ := MirrorGraph.mirrorNode_spec (targetsOf band judge now op s.tables) stamp n
    obtain ⟨hid', hv'⟩ := MirrorGraph.unmirrorNode_spec (unmirrorTargetsOf band judge now op s.tables)
      (MirrorGraph.mirrorNode (targetsOf band judge now op s.tables) stamp n)
    refine ⟨hid'.trans hid, ?_⟩
    rw [hv', hv, hid, hrestore, hretire]
    by_cases hmem : n.id ∈ absorbedIds band judge op.merges
    · simp [hmem]
    · simp [hmem]
  have hnodes : (undoneGraph band judge now op s stamp g).nodes.rows =
      g.nodes.rows.map fun n => MirrorGraph.unmirrorNode (unmirrorTargetsOf band judge now op s.tables)
        (MirrorGraph.mirrorNode (targetsOf band judge now op s.tables) stamp n) := by
    rw [undoneGraph, MirrorGraph.nodes_unmirrorTargets, MirrorGraph.nodes_applyMirrorTargets,
      List.map_map]
    rfl
  simp only [MirrorGraph.liveEntities, hnodes, List.mem_map, List.mem_filter,
    Option.isNone_iff_eq_none]
  constructor
  · rintro ⟨_, ⟨⟨n, hn, rfl⟩, hv⟩, rfl⟩
    rw [(hspec n).1]
    rcases (hspec n).2.mp hv with h | h
    · exact .inl ⟨n, ⟨hn, h⟩, rfl⟩
    · exact .inr ⟨h, n, hn, rfl⟩
  · rintro (⟨n, ⟨hn, hv⟩, rfl⟩ | ⟨hmem, n, hn, rfl⟩)
    · exact ⟨_, ⟨⟨n, hn, rfl⟩, (hspec n).2.mpr (.inl hv)⟩, (hspec n).1⟩
    · exact ⟨_, ⟨⟨n, hn, rfl⟩, (hspec n).2.mpr (.inr hmem)⟩, (hspec n).1⟩

/-- **The two stores agree after the undo exactly if they are unmirrorable.** -/
theorem sameLive_undo_iff (band : VerifierBand) (judge : MergeEntry Id → VerifierDecision) (now : T)
    (op : DedupeOp Id) (c : Id) (s : SqlState Id T) (g : MirrorGraph Id T) (stamp : T)
    (hop : op.Coherent c) (hsame : SameLive s g) :
    SameLive (undoneSql band judge now op s) (undoneGraph band judge now op s stamp g) ↔
      Unmirrorable s g c (absorbedIds band judge op.merges) := by
  obtain ⟨hedges, hents⟩ := hsame
  obtain ⟨hc, hn⟩ := @absorbed_nodup _ band judge op c hop
  constructor
  · rintro ⟨hedges', hents'⟩
    have hclosed : ∀ r ∈ s.tables.relationships.rows, r.live = true → s.closed r.id = true →
        r.collapses c (absorbedIds band judge op.merges) = true →
        r.id ∉ g.edges.rows.map GraphEdge.id := by
      intro r hr hlive hcl hcol hmem
      obtain ⟨e, he, hid⟩ := List.mem_map.mp hmem
      obtain ⟨hmid, -, -⟩ := mirrorEdge_spec (targetsOf band judge now op s.tables) stamp e
      obtain ⟨hid', hv', -⟩ := unmirrorEdge_spec (unmirrorTargetsOf band judge now op s.tables)
        (MirrorGraph.mirrorEdge (targetsOf band judge now op s.tables) stamp e)
      have hlive' := hv'.mpr (.inr (by
        rw [hmid, hid]
        exact (mem_invalidated_iff hop.canonical hr).mpr ⟨hlive, hcol⟩))
      obtain ⟨r', hr', hshown, heq⟩ := (mem_undoneSql_liveEdges hop).mp ((hedges' _).mpr
        (mem_graphEdges.mpr ⟨_, edges_undoneGraph (s := s) ▸ List.mem_map.mpr ⟨e, he, rfl⟩, hlive', rfl⟩))
      have hrid : r'.id = r.id := (congrArg Prod.fst heq).trans (hid'.trans (hmid.trans hid))
      have hopen := (shown_iff.mp hshown).2
      rw [hrid, hcl] at hopen
      cases hopen
    refine ⟨?_, hclosed, ?_⟩
    · intro r hr hshown hjoins
      have hlive := (shown_iff.mp hshown).1
      have hedge := (@mem_undoneGraph_liveEdges _ _ _ _ _ now _ _ _ _ stamp hop hedges hclosed _).mpr
        ((hedges _).mp (mem_sqlEdges.mpr ⟨r, hr, hshown, rfl⟩))
      obtain ⟨r', hr', -, heq⟩ := (mem_undoneSql_liveEdges hop).mp ((hedges' _).mpr hedge)
      have hrr := List.inj_on_of_nodup_map s.tables.relationships.nodup hr' hr (congrArg Prod.fst heq)
      subst hrr
      obtain ⟨hs, ht⟩ := Prod.mk.inj (Prod.mk.inj heq).2
      exact (undone_endpoints hc hn hlive).mp ⟨hs, ht⟩ hjoins
    · intro a ha
      have hiff := hents' a
      rw [mem_undoneSql_liveEntities hop, mem_undoneGraph_liveEntities hop] at hiff
      have hsql : a ∈ s.liveEntities → a ∈ s.tables.entities.rows.map Entity.id := by
        intro h
        obtain ⟨e, he, rfl⟩ := List.mem_map.mp h
        exact List.mem_map.mpr ⟨e, (List.mem_filter.mp he).1, rfl⟩
      have hgraph : a ∈ g.liveEntities → a ∈ g.nodes.rows.map GraphNode.id := by
        intro h
        obtain ⟨n, hn, rfl⟩ := List.mem_map.mp h
        exact List.mem_map.mpr ⟨n, (List.mem_filter.mp hn).1, rfl⟩
      constructor
      · intro h
        rcases hiff.mp (.inr ⟨ha, h⟩) with h | ⟨-, h⟩
        · exact hgraph h
        · exact h
      · intro h
        rcases hiff.mpr (.inr ⟨ha, h⟩) with h | ⟨-, h⟩
        · exact hsql h
        · exact h
  · rintro ⟨hjoins, hclosed, hboth⟩
    constructor
    · intro edge
      rw [mem_undoneGraph_liveEdges hop hedges hclosed, ← hedges edge, mem_undoneSql_liveEdges hop,
        mem_sqlEdges]
      apply exists_congr
      intro r
      apply and_congr_right
      intro hr
      apply and_congr_right
      intro hshown
      obtain ⟨hs, ht⟩ := (@undone_endpoints _ _ _ op.opId now _ _ _ hc hn
        (shown_iff.mp hshown).1).mpr (hjoins r hr hshown)
      rw [hs, ht]
    · intro x
      rw [mem_undoneSql_liveEntities hop, mem_undoneGraph_liveEntities hop, hents x]
      apply or_congr_right
      apply and_congr_right
      exact hboth x

end BothStores

/-- The graph of live entities 10 to 13 with the given edges. -/
def liveGraph (edges : List (GraphEdge ℕ ℕ)) (h : (edges.map GraphEdge.id).Nodup) :
    MirrorGraph ℕ ℕ where
  edges := ⟨edges, h⟩
  nodes := { rows := [⟨10, none⟩, ⟨11, none⟩, ⟨12, none⟩, ⟨13, none⟩], nodup := by decide }
  communities := fun _ => none

theorem sameLive_mergeable : SameLive ⟨mergeable, fun _ => false⟩
    (liveGraph [⟨1, 11, 13, none⟩, ⟨2, 10, 12, none⟩] (by decide)) := by
  constructor
  · intro edge
    exact Iff.rfl
  · intro x
    exact Iff.rfl

theorem sameLive_undo_mergeable :
    SameLive (undoneSql defaultBand deferring 100 dedupeOp ⟨mergeable, fun _ => false⟩)
      (undoneGraph defaultBand deferring 100 dedupeOp ⟨mergeable, fun _ => false⟩ 100
        (liveGraph [⟨1, 11, 13, none⟩, ⟨2, 10, 12, none⟩] (by decide))) := by
  refine (sameLive_undo_iff defaultBand deferring 100 dedupeOp 10 ⟨mergeable, fun _ => false⟩ _ 100
    coherent_dedupeOp sameLive_mergeable).mpr ⟨?_, ?_, ?_⟩
  · unfold Relationship.joins
    decide
  · decide
  · decide

/-- **An edge between two absorbed entities comes back differently in the two stores**: the
SQL store replays both snapshots, and the graph, which had not redirected the edge, keeps
the endpoints it had. -/
theorem absorbedPair_diverges :
    dedupeOp.Coherent 10 ∧
      SameLive ⟨absorbedPair, fun _ => false⟩ (liveGraph [⟨1, 11, 12, none⟩] (by decide)) ∧
      ¬ SameLive (undoneSql defaultBand deferring 100 dedupeOp ⟨absorbedPair, fun _ => false⟩)
        (undoneGraph defaultBand deferring 100 dedupeOp ⟨absorbedPair, fun _ => false⟩ 100
          (liveGraph [⟨1, 11, 12, none⟩] (by decide))) := by
  refine ⟨coherent_dedupeOp, ⟨fun edge => Iff.rfl, fun x => Iff.rfl⟩, fun h => ?_⟩
  have hedge := (h.1 (1, 10, 12)).mp (by decide)
  revert hedge
  decide

end Khora
