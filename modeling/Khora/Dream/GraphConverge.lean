import Khora.Dream.GraphMirror
import Khora.Lib.Runs

/-!
# Convergence of the graph mirror

Ops are committed one after another in the SQL store.  The mirror of each may fail and
leave a pending row; a drain replays pending rows later, in any order and with any
successes.  A payload holds the endpoints its edges had when it was committed.

* `OpEffect` — what a commit does to the live rows, in terms of its targets; every op has it.
* `Tracks` — the graph is the SQL store up to what the pending rows owe.
* `mirror_converges` — once nothing is pending the live sets are equal, if every replay sets
  the endpoints that an edge has now, or the row that has them is pending as well.
* `stale_replay` — a payload replayed after a later op has moved its edge.
-/

namespace Khora

variable {Id T : Type}

/-! ## The SQL store -/

/-- The tables, with the relationships whose `valid_to` is set. -/
structure SqlState (Id T : Type) where
  tables : DreamTables Id T
  closed : Id → Bool

/-- An op as it is committed; a reconcile is given by the relationships its judges agree
to invalidate. -/
inductive SqlOp (Id T : Type) where
  | dedupe (run : DedupeRun Id T)
  | prune (relationshipId : Id)
  | reconcile (losers : List Id)

section Commit

variable [DecidableEq Id]

/-- `UPDATE relationships SET valid_to = :ts WHERE id = :rid AND valid_to IS NULL`, with the
id if a row has changed. -/
def SqlState.close (s : SqlState Id T) (x : Id) : SqlState Id T × List Id :=
  if s.tables.relationships.rows.any (fun r => decide (r.id = x)) && !s.closed x then
    ({ s with closed := Function.update s.closed x true }, [x])
  else (s, [])

/-- The loop of `apply_vectorcypher_contradiction_reconcile`. -/
def SqlState.closeAll : List Id → SqlState Id T → SqlState Id T × List Id
  | [], s => (s, [])
  | x :: xs, s =>
      let (s', ids) := s.close x
      let (s'', ids') := closeAll xs s'
      (s'', ids ++ ids')

def SqlOp.kind : SqlOp Id T → OpKind
  | .dedupe _ => .vectorcypherDedupeEntities
  | .prune _ => .vectorcypherPruneEdges
  | .reconcile _ => .vectorcypherContradictionReconcile

/-- The apply handler of the op, and the `before` of its undo record. -/
def commitOp (band : VerifierBand) (s : SqlState Id T) : SqlOp Id T → SqlState Id T × UndoBefore Id
  | .dedupe run =>
      ({ s with tables := (applyVectorcypherDedupeEntities band run.judge run.now run.op s.tables).1 },
        dedupeUndo band run.judge run.now run.op s.tables)
  | .prune x =>
      match s.close x with
      | (s', []) => (s', .noop)
      | (s', ids) => (s', .relationships ids)
  | .reconcile losers =>
      let (s', ids) := s.closeAll losers
      (s', .relationships ids)

def opTargets (band : VerifierBand) (s : SqlState Id T) (op : SqlOp Id T) : MirrorTargets Id :=
  extractMirrorTargets op.kind (commitOp band s op).2

end Commit

/-! ## The system -/

/-- Both stores, and the pending rows by the place of their op in the order of commits. -/
structure MirrorSystem (Id T : Type) where
  sql : SqlState Id T
  graph : MirrorGraph Id T
  next : ℕ
  pending : List (ℕ × MirrorPayload)

/-- The first calls of `apply_mirror_targets`. -/
def MirrorTargets.calls (n : ℕ) (targets : MirrorTargets Id) : MirrorTargets Id :=
  { rewriteRelationships := if 1 ≤ n then targets.rewriteRelationships else []
    invalidateRelationshipIds := if 2 ≤ n then targets.invalidateRelationshipIds else []
    retireEntityIds := if 3 ≤ n then targets.retireEntityIds else [] }

/-- There is nothing to mirror. -/
def MirrorTargets.isEmpty (targets : MirrorTargets Id) : Bool :=
  targets.rewriteRelationships.isEmpty && targets.invalidateRelationshipIds.isEmpty &&
    targets.retireEntityIds.isEmpty

/-- A commit with its mirror, or the replay of one row: `calls` of the three calls are made,
and `clears` says that the row is cleared, which needs all of them. -/
inductive MirrorEvent (Id T : Type) where
  | commit (op : SqlOp Id T) (stamp : T) (calls : ℕ) (clears : Bool)
  | replay (place : ℕ) (fallbackStamp : T) (calls : ℕ) (clears : Bool)

section System

variable [DecidableEq Id] (text : PayloadText Id T) (band : VerifierBand)

def stepMirror (m : MirrorSystem Id T) : MirrorEvent Id T → MirrorSystem Id T
  | .commit op stamp calls clears =>
      let (sql, before) := commitOp band m.sql op
      let targets := extractMirrorTargets op.kind before
      { sql := sql
        graph := m.graph.applyMirrorTargets (targets.calls calls) stamp []
        next := m.next + 1
        pending := if targets.isEmpty || clears && decide (3 ≤ calls) then m.pending
          else m.pending ++ [(m.next, mirrorPayload text op.kind before (some stamp))] }
  | .replay place fallbackStamp calls clears =>
      match m.pending.find? fun row => row.1 = place with
      | none => m
      | some row =>
          { m with
            graph := m.graph.applyMirrorTargets ((targetsFromPayload text row.2).calls calls)
              (parseAppliedAt text row.2 fallbackStamp) []
            pending := if clears && decide (3 ≤ calls) then
              m.pending.filter fun row => decide (row.1 ≠ place) else m.pending }

/-- The live entities of the SQL store. -/
def SqlState.liveEntities (s : SqlState Id T) : List Id :=
  (s.tables.entities.rows.filter fun e => e.validUntil.isNone).map Entity.id

def MirrorGraph.liveEntities (g : MirrorGraph Id T) : List Id :=
  (g.nodes.rows.filter fun n => n.validUntil.isNone).map GraphNode.id

/-- The two stores have the same live edges, with their endpoints, and the same live
entities. -/
def SameLive (s : SqlState Id T) (g : MirrorGraph Id T) : Prop :=
  (∀ edge, edge ∈ liveEdges s.closed s.tables.relationships ↔ edge ∈ g.liveEdges) ∧
    ∀ x, x ∈ s.liveEntities ↔ x ∈ g.liveEntities

/-- The row has the endpoints that the relationship has in the SQL store now. -/
def CarriesNow (row : ℕ × MirrorPayload) (r : Relationship Id T) : Prop :=
  ∃ w ∈ (targetsFromPayload text row.2).rewriteRelationships, w.relationshipId = r.id ∧
    w.sourceEntityId = r.sourceEntityId ∧ w.targetEntityId = r.targetEntityId

/-- What a step must meet: a dedupe is one of the planner's, and a replay sets the endpoints
that a live relationship has now, or another pending row has them. -/
def Timely (m : MirrorSystem Id T) : MirrorEvent Id T → Prop
  | .commit (.dedupe run) _ _ _ => ∃ c, run.op.Coherent c
  | .commit _ _ _ _ => True
  | .replay place _ calls _ => calls = 0 ∨
      ∀ row ∈ m.pending, row.1 = place →
        ∀ w ∈ (targetsFromPayload text row.2).rewriteRelationships,
        ∀ r ∈ m.sql.tables.relationships.rows, r.id = w.relationshipId → r.shown m.sql.closed = true →
          (w.sourceEntityId = r.sourceEntityId ∧ w.targetEntityId = r.targetEntityId) ∨
          ∃ row' ∈ m.pending, row'.1 ≠ place ∧ CarriesNow text row' r

end System

/-! ## What a commit does -/

section Effects

variable [DecidableEq Id] {band : VerifierBand}

/-- A commit on the live rows, in terms of its targets. -/
structure OpEffect (s s' : SqlState Id T) (targets : MirrorTargets Id)
    (G : Relationship Id T → Relationship Id T) (H : Entity Id T → Entity Id T) : Prop where
  rows : s'.tables.relationships.rows = s.tables.relationships.rows.map G
  id : ∀ r, (G r).id = r.id
  shown : ∀ r ∈ s.tables.relationships.rows, ((G r).shown s'.closed = true ↔
    r.shown s.closed = true ∧ r.id ∉ targets.invalidateRelationshipIds)
  moved : ∀ r ∈ s.tables.relationships.rows, (G r).shown s'.closed = true →
    (∀ w ∈ targets.rewriteRelationships, w.relationshipId = r.id →
      w.sourceEntityId = (G r).sourceEntityId ∧ w.targetEntityId = (G r).targetEntityId) ∧
    ((∀ w ∈ targets.rewriteRelationships, w.relationshipId ≠ r.id) →
      (G r).sourceEntityId = r.sourceEntityId ∧ (G r).targetEntityId = r.targetEntityId)
  entities : s'.tables.entities.rows = s.tables.entities.rows.map H
  entityId : ∀ e, (H e).id = e.id
  live : ∀ e, (H e).validUntil = none ↔ e.validUntil = none ∧ e.id ∉ targets.retireEntityIds

theorem close_spec (s : SqlState Id T) (x : Id) :
    (s.close x).1.tables = s.tables ∧
      ∀ y, (s.close x).1.closed y = true ↔ s.closed y = true ∨ y ∈ (s.close x).2 := by
  unfold SqlState.close
  split
  · refine ⟨rfl, fun y => ?_⟩
    by_cases h : y = x
    · subst h
      simp
    · simp [h]
  · simp

theorem closeAll_spec (xs : List Id) : ∀ s : SqlState Id T,
    (s.closeAll xs).1.tables = s.tables ∧
      ∀ y, (s.closeAll xs).1.closed y = true ↔ s.closed y = true ∨ y ∈ (s.closeAll xs).2 := by
  induction xs with
  | nil => exact fun s => ⟨rfl, fun y => by simp [SqlState.closeAll]⟩
  | cons x xs ih =>
      intro s
      obtain ⟨ht, hc⟩ := close_spec s x
      obtain ⟨ht', hc'⟩ := ih (s.close x).1
      refine ⟨ht'.trans ht, fun y => ?_⟩
      show ((s.close x).1.closeAll xs).1.closed y = true ↔
        s.closed y = true ∨ y ∈ (s.close x).2 ++ ((s.close x).1.closeAll xs).2
      rw [hc', hc, List.mem_append, or_assoc]

omit [DecidableEq Id] in
/-- A commit that closes relationships. -/
theorem opEffect_closed {s s' : SqlState Id T} {ids : List Id} (ht : s'.tables = s.tables)
    (hc : ∀ y, s'.closed y = true ↔ s.closed y = true ∨ y ∈ ids) :
    OpEffect s s' ⟨[], ids, []⟩ (fun r => r) (fun e => e) where
  rows := by rw [ht, List.map_id']
  id := fun _ => rfl
  shown := by
    intro r _
    rw [shown_iff, shown_iff, ← Bool.not_eq_true, ← Bool.not_eq_true, hc]
    simp only [not_or]
    rw [and_assoc]
  moved := fun r _ _ => ⟨fun _ h => (by cases h), fun _ => ⟨rfl, rfl⟩⟩
  entities := by rw [ht, List.map_id']
  entityId := fun _ => rfl
  live := fun e => by simp

/-- **Every op has the effect that its targets say.** -/
theorem opEffect_commitOp {s : SqlState Id T} {op : SqlOp Id T}
    (hop : ∀ run, op = .dedupe run → ∃ c, run.op.Coherent c) :
    ∃ G H, OpEffect s (commitOp band s op).1 (opTargets band s op) G H := by
  cases op with
  | dedupe run =>
      obtain ⟨c, hc⟩ := hop run rfl
      obtain ⟨hrows, hents⟩ := @rows_applyMerges _ _ _ run.op.opId run.now c band run.judge run.op.merges
        s.tables hc.canonical
      have htargets : opTargets band s (.dedupe run) = targetsOf band run.judge run.now run.op s.tables := rfl
      refine ⟨_, _, hrows, fun r => id_applyRow _ r, ?_, ?_, hents, ?_, ?_⟩
      · intro r hr
        rw [htargets, mem_invalidated_iff hc.canonical hr]
        show (applyRow _ _ _ _ r).shown s.closed = true ↔ _
        rw [shown_applyRow, Bool.and_eq_true, Bool.not_eq_true', ← Bool.not_eq_true]
        constructor
        · exact fun h => ⟨h.1, fun h' => h.2 h'.2⟩
        · exact fun h => ⟨h.1, fun h' => h.2 ⟨(shown_iff.mp h.1).1, h'⟩⟩
      · intro r hr hshown
        obtain ⟨hends, hstays⟩ := @rewritten_endpoints _ _ _ run.now c band run.judge run.op s.tables
          hc.canonical r hr
        replace hshown : (applyRow run.op.opId run.now c (absorbedIds band run.judge run.op.merges) r).shown
          s.closed = true := hshown
        rw [shown_applyRow, Bool.and_eq_true, Bool.not_eq_true'] at hshown
        have hlive := (shown_iff.mp hshown.1).1
        have hrow := (@applyRow_of_live _ _ _ c (absorbedIds band run.judge run.op.merges) run.op.opId
          run.now r hlive).1 hshown.2
        rw [htargets, hrow]
        refine ⟨hends, fun hno => ?_⟩
        rw [hstays hlive hshown.2 hno]
        exact ⟨rfl, rfl⟩
      · intro e
        rw [foldl_retire]
        split
        · rfl
        · rfl
      · intro e
        have hret : (opTargets band s (.dedupe run)).retireEntityIds =
            absorbedIds band run.judge run.op.merges := by
          rw [htargets, targetsOf_eq hc.canonical]
        rw [foldl_retire, hret]
        split
        · rename_i h
          exact ⟨fun h' => (by cases h'), fun h' => absurd h.1 h'.2⟩
        · rename_i h
          exact ⟨fun hnone => ⟨hnone, fun hmem => h ⟨hmem, hnone⟩⟩, fun h' => h'.1⟩
  | prune x =>
      obtain ⟨ht, hc⟩ := close_spec s x
      refine ⟨fun r => r, fun e => e, ?_⟩
      have hcommit : (commitOp band s (.prune x)).1 = (s.close x).1 ∧
          opTargets band s (.prune x) = ⟨[], (s.close x).2, []⟩ := by
        simp only [opTargets, commitOp, SqlOp.kind]
        rcases s.close x with ⟨s', _ | ⟨y, ids⟩⟩
        · exact ⟨rfl, rfl⟩
        · exact ⟨rfl, rfl⟩
      rw [hcommit.1, hcommit.2]
      exact opEffect_closed ht hc
  | reconcile losers =>
      obtain ⟨ht, hc⟩ := closeAll_spec losers s
      exact ⟨_, _, opEffect_closed ht hc⟩

end Effects

/-! ## The invariant -/

section Invariant

variable [DecidableEq Id] {text : PayloadText Id T} {band : VerifierBand}

/-- **The graph is the SQL store up to what the pending rows owe**: the endpoints of a live
edge, an edge or an entity that is still live in the graph. -/
structure Tracks (text : PayloadText Id T) (m : MirrorSystem Id T) : Prop where
  edge : ∀ r ∈ m.sql.tables.relationships.rows, r.shown m.sql.closed = true →
    ∃ e ∈ m.graph.edges.rows, e.id = r.id ∧ e.validUntil = none ∧
      ((e.sourceEntityId = r.sourceEntityId ∧ e.targetEntityId = r.targetEntityId) ∨
        ∃ row ∈ m.pending, CarriesNow text row r)
  graphEdge : ∀ e ∈ m.graph.edges.rows, e.validUntil = none →
    (∃ r ∈ m.sql.tables.relationships.rows, r.id = e.id ∧ r.shown m.sql.closed = true) ∨
      ∃ row ∈ m.pending, e.id ∈ (targetsFromPayload text row.2).invalidateRelationshipIds
  invalidated : ∀ row ∈ m.pending, ∀ r ∈ m.sql.tables.relationships.rows,
    r.id ∈ (targetsFromPayload text row.2).invalidateRelationshipIds → r.shown m.sql.closed = false
  entity : ∀ e ∈ m.sql.tables.entities.rows, e.validUntil = none →
    ∃ n ∈ m.graph.nodes.rows, n.id = e.id ∧ n.validUntil = none
  graphEntity : ∀ n ∈ m.graph.nodes.rows, n.validUntil = none →
    (∃ e ∈ m.sql.tables.entities.rows, e.id = n.id ∧ e.validUntil = none) ∨
      ∃ row ∈ m.pending, n.id ∈ (targetsFromPayload text row.2).retireEntityIds
  retired : ∀ row ∈ m.pending, ∀ e ∈ m.sql.tables.entities.rows,
    e.id ∈ (targetsFromPayload text row.2).retireEntityIds → e.validUntil ≠ none
  places : ∀ row ∈ m.pending, row.1 < m.next
  distinct : (m.pending.map Prod.fst).Nodup

omit [DecidableEq Id] in
/-- Calls that were made are among the targets. -/
theorem calls_subset (n : ℕ) (targets : MirrorTargets Id) :
    (targets.calls n).rewriteRelationships ⊆ targets.rewriteRelationships ∧
      (targets.calls n).invalidateRelationshipIds ⊆ targets.invalidateRelationshipIds ∧
      (targets.calls n).retireEntityIds ⊆ targets.retireEntityIds := by
  unfold MirrorTargets.calls
  simp only
  refine ⟨?_, ?_, ?_⟩
  · split
    · exact fun _ h => h
    · exact List.nil_subset _
  · split
    · exact fun _ h => h
    · exact List.nil_subset _
  · split
    · exact fun _ h => h
    · exact List.nil_subset _

omit [DecidableEq Id] in
theorem calls_eq_self {n : ℕ} {targets : MirrorTargets Id}
    (h : targets.isEmpty = true ∨ 3 ≤ n) : targets.calls n = targets := by
  obtain ⟨retire, invalidate, rewrites⟩ := targets
  rcases h with h | h
  · unfold MirrorTargets.isEmpty at h
    rw [Bool.and_eq_true, Bool.and_eq_true, List.isEmpty_iff, List.isEmpty_iff, List.isEmpty_iff] at h
    obtain ⟨⟨rfl, rfl⟩, rfl⟩ := h
    simp [MirrorTargets.calls]
  · have h₁ : 1 ≤ n := by omega
    have h₂ : 2 ≤ n := by omega
    simp [MirrorTargets.calls, h, h₁, h₂]

section Commit

variable {m : MirrorSystem Id T} {sql : SqlState Id T} {targets : MirrorTargets Id}
  {G : Relationship Id T → Relationship Id T} {H : Entity Id T → Entity Id T}

/-- A commit keeps the invariant: what its mirror did not do, its row owes. -/
theorem tracks_commit (h : Tracks text m) (heff : OpEffect m.sql sql targets G H) (stamp : T) (n : ℕ)
    {pending : List (ℕ × MirrorPayload)}
    (hpending : (pending = m.pending ∧ targets.calls n = targets) ∨
      ∃ payload, pending = m.pending ++ [(m.next, payload)] ∧ targetsFromPayload text payload = targets) :
    Tracks text ⟨sql, m.graph.applyMirrorTargets (targets.calls n) stamp [], m.next + 1, pending⟩ := by
  obtain ⟨hsubw, hsubi, hsubr⟩ := calls_subset n targets
  have hold : ∀ row ∈ m.pending, row ∈ pending := by
    intro row hrow
    rcases hpending with ⟨rfl, -⟩ | ⟨payload, rfl, -⟩
    · exact hrow
    · exact List.mem_append_left _ hrow
  have howed : targets.calls n = targets ∨
      ∃ row ∈ pending, targetsFromPayload text row.2 = targets := by
    rcases hpending with ⟨-, heq⟩ | ⟨payload, rfl, heq⟩
    · exact .inl heq
    · exact .inr ⟨_, List.mem_append_right _ List.mem_cons_self, heq⟩
  have hnew : ∀ row ∈ pending, row ∈ m.pending ∨
      row.1 = m.next ∧ targetsFromPayload text row.2 = targets := by
    intro row hrow
    rcases hpending with ⟨rfl, -⟩ | ⟨payload, rfl, heq⟩
    · exact .inl hrow
    · rcases List.mem_append.mp hrow with hrow | hrow
      · exact .inl hrow
      · obtain rfl := List.mem_singleton.mp hrow
        exact .inr ⟨rfl, heq⟩
  refine ⟨?_, ?_, ?_, ?_, ?_, ?_, ?_, ?_⟩
  · intro r' hr' hshown'
    rw [heff.rows] at hr'
    obtain ⟨r, hr, rfl⟩ := List.mem_map.mp hr'
    obtain ⟨hshown, hinv⟩ := (heff.shown r hr).mp hshown'
    obtain ⟨hmoved, hstays⟩ := heff.moved r hr hshown'
    obtain ⟨e, he, hid, hlive, hends⟩ := h.edge r hr hshown
    obtain ⟨hid', hv', hends'⟩ := mirrorEdge_spec (targets.calls n) stamp e
    refine ⟨_, ?_, hid'.trans (hid.trans (heff.id r).symm), ?_, ?_⟩
    · rw [MirrorGraph.edges_applyMirrorTargets]
      exact List.mem_map.mpr ⟨e, he, rfl⟩
    · exact hv'.mpr ⟨hlive, fun hmem => hinv (hid ▸ hsubi hmem)⟩
    · rcases hends' with ⟨w, hw, hrel, hs, ht⟩ | ⟨hno, hs, ht⟩
      · obtain ⟨hs', ht'⟩ := hmoved w (hsubw hw) (hrel.trans hid)
        exact .inl ⟨hs.trans hs', ht.trans ht'⟩
      · by_cases hex : ∃ w ∈ targets.rewriteRelationships, w.relationshipId = r.id
        · -- the rewrite was not made: the row of the op has it
          obtain ⟨w, hw, hrel⟩ := hex
          rcases howed with heq | ⟨row, hrow, heq⟩
          · rw [heq] at hno
            exact absurd (hrel.trans hid.symm) (hno w hw)
          · refine .inr ⟨row, hrow, w, ?_, hrel.trans (heff.id r).symm, hmoved w hw hrel⟩
            rw [heq]
            exact hw
        · have hstay := hstays fun w hw hrel => hex ⟨w, hw, hrel⟩
          rcases hends with ⟨hs', ht'⟩ | ⟨row, hrow, w, hw, hrel, hs', ht'⟩
          · exact .inl ⟨hs.trans (hs'.trans hstay.1.symm), ht.trans (ht'.trans hstay.2.symm)⟩
          · exact .inr ⟨row, hold row hrow, w, hw, hrel.trans (heff.id r).symm,
              hs'.trans hstay.1.symm, ht'.trans hstay.2.symm⟩
  · intro e' he' hlive'
    rw [MirrorGraph.edges_applyMirrorTargets] at he'
    obtain ⟨e, he, rfl⟩ := List.mem_map.mp he'
    obtain ⟨hid', hv', -⟩ := mirrorEdge_spec (targets.calls n) stamp e
    obtain ⟨hlive, hinv⟩ := hv'.mp hlive'
    rw [hid']
    rcases h.graphEdge e he hlive with ⟨r, hr, hid, hshown⟩ | ⟨row, hrow, hmem⟩
    · by_cases hmem : r.id ∈ targets.invalidateRelationshipIds
      · rcases howed with heq | ⟨row, hrow, heq⟩
        · rw [heq, ← hid] at hinv
          exact absurd hmem hinv
        · refine .inr ⟨row, hrow, ?_⟩
          rw [heq, ← hid]
          exact hmem
      · refine .inl ⟨G r, ?_, (heff.id r).trans hid, (heff.shown r hr).mpr ⟨hshown, hmem⟩⟩
        rw [heff.rows]
        exact List.mem_map.mpr ⟨r, hr, rfl⟩
    · exact .inr ⟨row, hold row hrow, hmem⟩
  · intro row hrow r' hr' hmem
    rw [heff.rows] at hr'
    obtain ⟨r, hr, rfl⟩ := List.mem_map.mp hr'
    rw [heff.id] at hmem
    rw [← Bool.not_eq_true, heff.shown r hr]
    rintro ⟨hshown, hinv⟩
    rcases hnew row hrow with hrow | ⟨-, heq⟩
    · rw [h.invalidated row hrow r hr hmem] at hshown
      cases hshown
    · rw [heq] at hmem
      exact hinv hmem
  · intro e' he' hlive'
    rw [heff.entities] at he'
    obtain ⟨e, he, rfl⟩ := List.mem_map.mp he'
    obtain ⟨hlive, hret⟩ := (heff.live e).mp hlive'
    obtain ⟨n', hn', hid, hv⟩ := h.entity e he hlive
    obtain ⟨hid', hv'⟩ := MirrorGraph.mirrorNode_spec (targets.calls n) stamp n'
    refine ⟨_, ?_, hid'.trans (hid.trans (heff.entityId e).symm), ?_⟩
    · rw [MirrorGraph.nodes_applyMirrorTargets]
      exact List.mem_map.mpr ⟨n', hn', rfl⟩
    · exact hv'.mpr ⟨hv, fun hmem => hret (hid ▸ hsubr hmem)⟩
  · intro n' hn' hlive'
    rw [MirrorGraph.nodes_applyMirrorTargets] at hn'
    obtain ⟨n₀, hn₀, rfl⟩ := List.mem_map.mp hn'
    obtain ⟨hid', hv'⟩ := MirrorGraph.mirrorNode_spec (targets.calls n) stamp n₀
    obtain ⟨hlive, hret⟩ := hv'.mp hlive'
    rw [hid']
    rcases h.graphEntity n₀ hn₀ hlive with ⟨e, he, hid, hv⟩ | ⟨row, hrow, hmem⟩
    · by_cases hmem : e.id ∈ targets.retireEntityIds
      · rcases howed with heq | ⟨row, hrow, heq⟩
        · rw [heq, ← hid] at hret
          exact absurd hmem hret
        · refine .inr ⟨row, hrow, ?_⟩
          rw [heq, ← hid]
          exact hmem
      · refine .inl ⟨H e, ?_, (heff.entityId e).trans hid, (heff.live e).mpr ⟨hv, hmem⟩⟩
        rw [heff.entities]
        exact List.mem_map.mpr ⟨e, he, rfl⟩
    · exact .inr ⟨row, hold row hrow, hmem⟩
  · intro row hrow e' he' hmem hlive'
    rw [heff.entities] at he'
    obtain ⟨e, he, rfl⟩ := List.mem_map.mp he'
    rw [heff.entityId] at hmem
    obtain ⟨hlive, hret⟩ := (heff.live e).mp hlive'
    rcases hnew row hrow with hrow | ⟨-, heq⟩
    · exact h.retired row hrow e he hmem hlive
    · rw [heq] at hmem
      exact hret hmem
  · intro row hrow
    rcases hnew row hrow with hrow | ⟨heq, -⟩
    · exact Nat.lt_succ_of_lt (h.places row hrow)
    · rw [heq]
      exact Nat.lt_succ_self _
  · rcases hpending with ⟨rfl, -⟩ | ⟨payload, rfl, -⟩
    · exact h.distinct
    · rw [List.map_append, List.nodup_append]
      refine ⟨h.distinct, List.nodup_singleton _, ?_⟩
      intro x hx y hy heq
      obtain ⟨row, hrow, rfl⟩ := List.mem_map.mp hx
      rw [List.map_singleton, List.mem_singleton] at hy
      exact (h.places row hrow).ne (heq.trans hy)

end Commit

section Replay

variable {m : MirrorSystem Id T} {row : ℕ × MirrorPayload}

/-- A timely replay keeps the invariant: the row that is cleared has been paid. -/
theorem tracks_replay (h : Tracks text m) (hrow : row ∈ m.pending) (stamp : T) (n : ℕ)
    (htimely : n = 0 ∨ ∀ w ∈ (targetsFromPayload text row.2).rewriteRelationships,
      ∀ r ∈ m.sql.tables.relationships.rows, r.id = w.relationshipId → r.shown m.sql.closed = true →
        (w.sourceEntityId = r.sourceEntityId ∧ w.targetEntityId = r.targetEntityId) ∨
        ∃ row' ∈ m.pending, row'.1 ≠ row.1 ∧ CarriesNow text row' r)
    {pending : List (ℕ × MirrorPayload)}
    (hpending : pending = m.pending ∨
      pending = (m.pending.filter fun row' => decide (row'.1 ≠ row.1)) ∧ 3 ≤ n) :
    Tracks text { m with
      graph := m.graph.applyMirrorTargets ((targetsFromPayload text row.2).calls n) stamp []
      pending := pending } := by
  obtain ⟨hsubw, hsubi, hsubr⟩ := calls_subset n (targetsFromPayload text row.2)
  have hsub : ∀ row' ∈ pending, row' ∈ m.pending := by
    intro row' hrow'
    rcases hpending with rfl | ⟨rfl, -⟩
    · exact hrow'
    · exact List.mem_of_mem_filter hrow'
  have hother : ∀ row' ∈ m.pending, row'.1 ≠ row.1 → row' ∈ pending := by
    intro row' hrow' hne
    rcases hpending with rfl | ⟨rfl, -⟩
    · exact hrow'
    · exact List.mem_filter.mpr ⟨hrow', decide_eq_true hne⟩
  -- a row is still there, or it is the one replayed and all its calls were made
  have hkept : ∀ row' ∈ m.pending, row' ∈ pending ∨
      row' = row ∧ (targetsFromPayload text row.2).calls n = targetsFromPayload text row.2 := by
    intro row' hrow'
    by_cases hne : row'.1 = row.1
    · rcases hpending with rfl | ⟨-, hn⟩
      · exact .inl hrow'
      · exact .inr ⟨List.inj_on_of_nodup_map h.distinct hrow' hrow hne, calls_eq_self (.inr hn)⟩
    · exact .inl (hother row' hrow' hne)
  refine ⟨?_, ?_, fun row' hrow' => h.invalidated row' (hsub row' hrow'), ?_, ?_,
    fun row' hrow' => h.retired row' (hsub row' hrow'), fun row' hrow' => h.places row' (hsub row' hrow'), ?_⟩
  · intro r hr hshown
    obtain ⟨e, he, hid, hlive, hends⟩ := h.edge r hr hshown
    obtain ⟨hid', hv', hends'⟩ := mirrorEdge_spec ((targetsFromPayload text row.2).calls n) stamp e
    refine ⟨_, ?_, hid'.trans hid, hv'.mpr ⟨hlive, ?_⟩, ?_⟩
    · rw [MirrorGraph.edges_applyMirrorTargets]
      exact List.mem_map.mpr ⟨e, he, rfl⟩
    · intro hmem
      have hdead := h.invalidated row hrow r hr (hid ▸ hsubi hmem)
      rw [hshown] at hdead
      cases hdead
    · rcases hends' with ⟨w, hw, hrel, hs, ht⟩ | ⟨hno, hs, ht⟩
      · rcases htimely with rfl | htimely
        · simp [MirrorTargets.calls] at hw
        · rcases htimely w (hsubw hw) r hr (hid.symm.trans hrel.symm) hshown with ⟨hs', ht'⟩ | ⟨row', hrow', hne, hcar⟩
          · exact .inl ⟨hs.trans hs', ht.trans ht'⟩
          · exact .inr ⟨row', hother row' hrow' hne, hcar⟩
      · rcases hends with ⟨hs', ht'⟩ | ⟨row', hrow', w, hw, hrel, hw'⟩
        · exact .inl ⟨hs.trans hs', ht.trans ht'⟩
        · rcases hkept row' hrow' with hrow' | ⟨rfl, heq⟩
          · exact .inr ⟨row', hrow', w, hw, hrel, hw'⟩
          · rw [heq] at hno
            exact absurd (hrel.trans hid.symm) (hno w hw)
  · intro e' he' hlive'
    rw [MirrorGraph.edges_applyMirrorTargets] at he'
    obtain ⟨e, he, rfl⟩ := List.mem_map.mp he'
    obtain ⟨hid', hv', -⟩ := mirrorEdge_spec ((targetsFromPayload text row.2).calls n) stamp e
    obtain ⟨hlive, hinv⟩ := hv'.mp hlive'
    rw [hid']
    rcases h.graphEdge e he hlive with hsql | ⟨row', hrow', hmem⟩
    · exact .inl hsql
    · rcases hkept row' hrow' with hrow' | ⟨rfl, heq⟩
      · exact .inr ⟨row', hrow', hmem⟩
      · rw [heq] at hinv
        exact absurd hmem hinv
  · intro e he hlive
    obtain ⟨n', hn', hid, hv⟩ := h.entity e he hlive
    obtain ⟨hid', hv'⟩ := MirrorGraph.mirrorNode_spec ((targetsFromPayload text row.2).calls n) stamp n'
    refine ⟨_, ?_, hid'.trans hid, hv'.mpr ⟨hv, fun hmem => ?_⟩⟩
    · rw [MirrorGraph.nodes_applyMirrorTargets]
      exact List.mem_map.mpr ⟨n', hn', rfl⟩
    · exact h.retired row hrow e he (hid ▸ hsubr hmem) hlive
  · intro n' hn' hlive'
    rw [MirrorGraph.nodes_applyMirrorTargets] at hn'
    obtain ⟨n₀, hn₀, rfl⟩ := List.mem_map.mp hn'
    obtain ⟨hid', hv'⟩ := MirrorGraph.mirrorNode_spec ((targetsFromPayload text row.2).calls n) stamp n₀
    obtain ⟨hlive, hret⟩ := hv'.mp hlive'
    rw [hid']
    rcases h.graphEntity n₀ hn₀ hlive with hsql | ⟨row', hrow', hmem⟩
    · exact .inl hsql
    · rcases hkept row' hrow' with hrow' | ⟨rfl, heq⟩
      · exact .inr ⟨row', hrow', hmem⟩
      · rw [heq] at hret
        exact absurd hmem hret
  · rcases hpending with rfl | ⟨rfl, -⟩
    · exact h.distinct
    · exact h.distinct.sublist (List.filter_sublist.map _)

end Replay

/-! ## Runs -/

theorem tracks_step {m : MirrorSystem Id T} (h : Tracks text m) (e : MirrorEvent Id T)
    (htimely : Timely text m e) : Tracks text (stepMirror text band m e) := by
  cases e with
  | commit op stamp calls clears =>
      have hop : ∀ run, op = .dedupe run → ∃ c, run.op.Coherent c := by
        rintro run rfl
        exact htimely
      obtain ⟨G, H, heff⟩ := @opEffect_commitOp _ _ _ band m.sql op hop
      refine tracks_commit h heff stamp calls ?_
      by_cases hdone : ((opTargets band m.sql op).isEmpty || clears && decide (3 ≤ calls)) = true
      · refine .inl ⟨if_pos hdone, calls_eq_self ?_⟩
        rw [Bool.or_eq_true, Bool.and_eq_true, decide_eq_true_eq] at hdone
        exact hdone.imp_right And.right
      · exact .inr ⟨_, if_neg hdone, targetsFromPayload_mirrorPayload text _ _ _⟩
  | replay place fallbackStamp calls clears =>
      unfold stepMirror
      simp only
      split
      · exact h
      · rename_i row hfind
        have hrow := List.mem_of_find?_eq_some hfind
        have hplace : row.1 = place := by simpa using List.find?_some hfind
        subst hplace
        refine tracks_replay h hrow _ calls (htimely.imp id fun ht => ht row hrow rfl) ?_
        split
        · rename_i hclear
          rw [Bool.and_eq_true, decide_eq_true_eq] at hclear
          exact .inr ⟨rfl, hclear.2⟩
        · exact .inl rfl

omit [DecidableEq Id] in
/-- Equal live sets and nothing pending: the start of a run. -/
theorem tracks_of_sameLive {m : MirrorSystem Id T} (hsame : SameLive m.sql m.graph)
    (hnone : m.pending = []) : Tracks text m := by
  obtain ⟨hedges, hents⟩ := hsame
  have hno : ∀ row, row ∉ m.pending := fun row h => by
    rw [hnone] at h
    cases h
  refine ⟨?_, ?_, fun row hrow => absurd hrow (hno row), ?_, ?_, fun row hrow => absurd hrow (hno row),
    fun row hrow => absurd hrow (hno row), ?_⟩
  · intro r hr hshown
    have hmem : (r.id, r.sourceEntityId, r.targetEntityId) ∈ m.graph.liveEdges :=
      (hedges _).mp (List.mem_map.mpr ⟨r, List.mem_filter.mpr ⟨hr, hshown⟩, rfl⟩)
    obtain ⟨e, he, heq⟩ := List.mem_map.mp hmem
    rw [List.mem_filter, Option.isNone_iff_eq_none] at he
    rw [Prod.mk.injEq, Prod.mk.injEq] at heq
    exact ⟨e, he.1, heq.1, he.2, .inl heq.2⟩
  · intro e he hlive
    have hmem : (e.id, e.sourceEntityId, e.targetEntityId) ∈
        liveEdges m.sql.closed m.sql.tables.relationships :=
      (hedges _).mpr (List.mem_map.mpr ⟨e, List.mem_filter.mpr ⟨he, by simp [hlive]⟩, rfl⟩)
    obtain ⟨r, hr, heq⟩ := List.mem_map.mp hmem
    rw [List.mem_filter] at hr
    exact .inl ⟨r, hr.1, congrArg Prod.fst heq, hr.2⟩
  · intro e he hlive
    have hmem : e.id ∈ m.graph.liveEntities :=
      (hents _).mp (List.mem_map.mpr ⟨e, List.mem_filter.mpr ⟨he, by simp [hlive]⟩, rfl⟩)
    obtain ⟨n, hn, heq⟩ := List.mem_map.mp hmem
    rw [List.mem_filter, Option.isNone_iff_eq_none] at hn
    exact ⟨n, hn.1, heq, hn.2⟩
  · intro n hn hlive
    have hmem : n.id ∈ m.sql.liveEntities :=
      (hents _).mpr (List.mem_map.mpr ⟨n, List.mem_filter.mpr ⟨hn, by simp [hlive]⟩, rfl⟩)
    obtain ⟨e, he, heq⟩ := List.mem_map.mp hmem
    rw [List.mem_filter, Option.isNone_iff_eq_none] at he
    exact .inl ⟨e, he.1, heq, he.2⟩
  · rw [hnone]
    exact List.nodup_nil

omit [DecidableEq Id] in
/-- A system that owes nothing has equal live sets. -/
theorem Tracks.sameLive {m : MirrorSystem Id T} (h : Tracks text m) (hnone : m.pending = []) :
    SameLive m.sql m.graph := by
  have hno : ∀ row, row ∉ m.pending := fun row h => by
    rw [hnone] at h
    cases h
  refine ⟨?_, ?_⟩
  · rintro ⟨x, y, z⟩
    simp only [liveEdges, MirrorGraph.liveEdges, List.mem_map, List.mem_filter, Prod.mk.injEq,
      Option.isNone_iff_eq_none]
    constructor
    · rintro ⟨r, ⟨hr, hshown⟩, rfl, rfl, rfl⟩
      obtain ⟨e, he, hid, hlive, hends | ⟨row, hrow, -⟩⟩ := h.edge r hr hshown
      · exact ⟨e, ⟨he, hlive⟩, hid, hends⟩
      · exact absurd hrow (hno row)
    · rintro ⟨e, ⟨he, hlive⟩, rfl, rfl, rfl⟩
      rcases h.graphEdge e he hlive with ⟨r, hr, hid, hshown⟩ | ⟨row, hrow, -⟩
      · obtain ⟨e', he', hid', -, hends | ⟨row, hrow, -⟩⟩ := h.edge r hr hshown
        · have heq := List.inj_on_of_nodup_map m.graph.edges.nodup he' he (hid'.trans hid)
          rw [heq] at hends
          exact ⟨r, ⟨hr, hshown⟩, hid, hends.1.symm, hends.2.symm⟩
        · exact absurd hrow (hno row)
      · exact absurd hrow (hno row)
  · intro x
    simp only [SqlState.liveEntities, MirrorGraph.liveEntities, List.mem_map, List.mem_filter,
      Option.isNone_iff_eq_none]
    constructor
    · rintro ⟨e, ⟨he, hlive⟩, rfl⟩
      obtain ⟨n, hn, hid, hv⟩ := h.entity e he hlive
      exact ⟨n, ⟨hn, hv⟩, hid⟩
    · rintro ⟨n, ⟨hn, hlive⟩, rfl⟩
      rcases h.graphEntity n hn hlive with ⟨e, he, hid, hv⟩ | ⟨row, hrow, -⟩
      · exact ⟨e, ⟨he, hv⟩, hid⟩
      · exact absurd hrow (hno row)

/-- **The mirror converges if no replay is stale.**  From equal live sets, in every run of
commits whose mirrors fail or not and of replays of any pending rows in any order, each
replay timely: once no row is pending, the live entities and the live edges with their
endpoints are equal. -/
theorem mirror_converges (text : PayloadText Id T) (band : VerifierBand) {m : MirrorSystem Id T}
    (hsame : SameLive m.sql m.graph) (hnone : m.pending = []) (events : List (MirrorEvent Id T))
    (htimely : Runs.Guarded (stepMirror text band) (Timely text) m events)
    (hdrained : (Runs.run (stepMirror text band) m events).pending = []) :
    SameLive (Runs.run (stepMirror text band) m events).sql
      (Runs.run (stepMirror text band) m events).graph := by
  have htracks : Tracks text (Runs.run (stepMirror text band) m events) :=
    @Runs.run_invariant _ _ _ _ (Tracks text) (fun m e h hg => tracks_step h e hg) events m
      (tracks_of_sameLive hsame hnone) htimely
  exact htracks.sameLive hdrained

end Invariant

/-- One edge from `a` to `b`, and the entities that are to absorb them, in both stores. -/
def twoStores : MirrorSystem String String where
  sql :=
    { tables :=
        { relationships := { rows := [⟨"e", "a", "b", "KNOWS", none, none⟩], nodup := by decide }
          entities :=
            { rows := [⟨"a", none⟩, ⟨"b", none⟩, ⟨"c", none⟩, ⟨"d", none⟩], nodup := by decide } }
      closed := fun _ => false }
  graph :=
    { edges := { rows := [⟨"e", "a", "b", none⟩], nodup := by decide }
      nodes := { rows := [⟨"a", none⟩, ⟨"b", none⟩, ⟨"c", none⟩, ⟨"d", none⟩], nodup := by decide }
      communities := fun _ => none }
  next := 0
  pending := []

theorem sameLive_twoStores : SameLive twoStores.sql twoStores.graph :=
  ⟨fun _ => Iff.rfl, fun _ => Iff.rfl⟩

/-- A dedupe op of one merge. -/
def mergeInto (c a : String) : SqlOp String String :=
  .dedupe ⟨⟨"op", [⟨c, a, none⟩]⟩, "now", fun _ => .defer⟩

/-- The mirror of the first op fails, and its row is replayed. -/
theorem mirror_converges_twoStores :
    SameLive
      (Runs.run (stepMirror selfText defaultBand) twoStores
        [.commit (mergeInto "c" "a") "now" 0 false, .replay 0 "later" 3 true]).sql
      (Runs.run (stepMirror selfText defaultBand) twoStores
        [.commit (mergeInto "c" "a") "now" 0 false, .replay 0 "later" 3 true]).graph := by
  refine mirror_converges selfText defaultBand sameLive_twoStores rfl _ ⟨?_, .inr ?_, trivial⟩ (by decide)
  · exact ⟨"c", by decide, by decide, by decide⟩
  · have hnow : ∀ row ∈ (stepMirror selfText defaultBand twoStores
          (.commit (mergeInto "c" "a") "now" 0 false)).pending,
        ∀ w ∈ (targetsFromPayload selfText row.2).rewriteRelationships,
        ∀ r ∈ (stepMirror selfText defaultBand twoStores
          (.commit (mergeInto "c" "a") "now" 0 false)).sql.tables.relationships.rows,
        w.sourceEntityId = r.sourceEntityId ∧ w.targetEntityId = r.targetEntityId := by
      decide
    intro row hrow _ w hw r hr _ _
    exact .inl (hnow row hrow w hw r hr)

/-- The mirror of the first op fails, that of the second succeeds, then the row is replayed. -/
def staleRun : MirrorSystem String String :=
  Runs.run (stepMirror selfText defaultBand) twoStores
    [.commit (mergeInto "c" "a") "now" 0 false, .commit (mergeInto "d" "b") "now" 3 true,
      .replay 0 "later" 3 true]

/-- **A stale replay sets the endpoints of an edge back**, and nothing is left to drain. -/
theorem stale_replay :
    SameLive twoStores.sql twoStores.graph ∧ staleRun.pending = [] ∧
      liveEdges staleRun.sql.closed staleRun.sql.tables.relationships = [("e", "c", "d")] ∧
      staleRun.graph.liveEdges = [("e", "c", "b")] ∧
      ¬ SameLive staleRun.sql staleRun.graph := by
  have hsql : liveEdges staleRun.sql.closed staleRun.sql.tables.relationships = [("e", "c", "d")] := by
    decide
  have hgraph : staleRun.graph.liveEdges = [("e", "c", "b")] := by decide
  refine ⟨sameLive_twoStores, by decide, hsql, hgraph, fun h => ?_⟩
  have hmem := (h.1 ("e", "c", "d")).mp (by rw [hsql]; decide)
  rw [hgraph] at hmem
  revert hmem
  decide

end Khora
