import Khora.Dream.ApplyPhase
import Khora.Dream.DedupeEntities
import Mathlib.Data.List.Dedup

/-!
# The graph mirror of a dream op

A dream op is committed in the SQL store; after the commit its soft-deletes and its
redirected edges are pushed to the graph.  What to push is read off the undo record:
entities to retire, edges to invalidate, and edges with their new endpoints, where one map
over all merges of the op takes each absorbed entity to its canonical one.

* `applyRow_of_live` — the merges of an op with one canonical entity act on a live row as one
  simultaneous substitution.
* `mem_invalidated_iff`, `rewritten_endpoints` — the targets of the op, edge by edge.
* `sameEdges_mirror` — a graph with the live edges of the SQL store has them after the
  mirror as well.
-/

namespace Khora

variable {Id T : Type}

/-! ## Targets -/

/-- An element of `rewrite_relationships`: the endpoints after the op. -/
structure RewriteEntry (Id : Type) where
  relationshipId : Id
  sourceEntityId : Id
  targetEntityId : Id
  relationshipType : String
deriving DecidableEq

structure MirrorTargets (Id : Type) where
  retireEntityIds : List Id
  invalidateRelationshipIds : List Id
  rewriteRelationships : List (RewriteEntry Id)
deriving DecidableEq

structure CommunityNode (Id : Type) where
  id : Id
  summary : String
  memberIds : List Id
  summaryDepth : ℕ
deriving DecidableEq

/-- `UndoRecord.before`, by the handler that made it; `noop` for a record of no change. -/
inductive UndoBefore (Id : Type) where
  | relationships (ids : List Id)
  | merges (ms : List (MergeUndo Id))
  | community (communityId : Id) (summaryText : Option String) (memberIds : List Id)
      (summaryDepth : Option ℕ)
  | noop

/-- `MIRRORABLE_OP_KINDS` -/
def OpKind.mirrorable : OpKind → Bool
  | vectorcypherPruneEdges | vectorcypherDedupeEntities | vectorcypherCommunitySummary
  | vectorcypherContradictionReconcile => true
  | _ => false

section Extract

variable [DecidableEq Id]

/-- `absorbed_to_canonical.get(x, x)`, where a later merge overrides an earlier one. -/
def absorbedToCanonical (applied : List (MergeUndo Id)) (x : Id) : Id :=
  (applied.foldl (fun found m => if m.absorbedId = x then some m.canonicalId else found) none).getD x

/-- The edges that one merge invalidates: its self-loops, and those that become one under
the map of the whole op. -/
def mergeInvalidated (remap : Id → Id) (m : MergeUndo Id) : List Id :=
  m.selfLoopsInvalidated.dedup ++
    (m.previousRelationships.filter fun prev =>
      decide (prev.id ∉ m.selfLoopsInvalidated) &&
        decide (remap prev.sourceEntityId = remap prev.targetEntityId)).map PreviousRelationship.id

/-- The edges that one merge redirects. -/
def mergeRewritten (remap : Id → Id) (m : MergeUndo Id) : List (RewriteEntry Id) :=
  (m.previousRelationships.filter fun prev =>
    decide (prev.id ∉ m.selfLoopsInvalidated) &&
      !decide (remap prev.sourceEntityId = remap prev.targetEntityId) &&
      !(decide (remap prev.sourceEntityId = prev.sourceEntityId) &&
        decide (remap prev.targetEntityId = prev.targetEntityId))).map fun prev =>
    ⟨prev.id, remap prev.sourceEntityId, remap prev.targetEntityId, prev.relationshipType⟩

/-- `extract_mirror_targets` on the merges of a dedupe op. -/
def dedupeTargets (ms : List (MergeUndo Id)) : MirrorTargets Id :=
  let applied := ms.filter MergeUndo.applied
  let remap := absorbedToCanonical applied
  { retireEntityIds := applied.map MergeUndo.absorbedId
    invalidateRelationshipIds := applied.flatMap (mergeInvalidated remap)
    rewriteRelationships := applied.flatMap (mergeRewritten remap) }

/-- `extract_mirror_targets` -/
def extractMirrorTargets (op : OpKind) (before : UndoBefore Id) : MirrorTargets Id :=
  match op, before with
  | .vectorcypherPruneEdges, .relationships ids => ⟨[], ids, []⟩
  | .vectorcypherContradictionReconcile, .relationships ids => ⟨[], ids, []⟩
  | .vectorcypherDedupeEntities, .merges ms => dedupeTargets ms
  | _, _ => ⟨[], [], []⟩

end Extract

/-- `int(x or 1)` -/
def depthOr (depth : Option ℕ) : ℕ :=
  match depth with
  | none | some 0 => 1
  | some n => n

/-- `extract_community_targets` -/
def extractCommunityTargets (op : OpKind) (before : UndoBefore Id) : List (CommunityNode Id) :=
  match op, before with
  | .vectorcypherCommunitySummary, .community id summary members depth =>
      [⟨id, summary.getD "", members, depthOr depth⟩]
  | _, _ => []

/-! ## The payload of a pending row -/

/-- How ids and times are written to JSON and read back. -/
structure PayloadText (Id T : Type) where
  str : Id → String
  uuid : String → Option Id
  isoformat : T → String
  fromisoformat : String → Option T
  uuid_str : ∀ x, uuid (str x) = some x
  fromisoformat_isoformat : ∀ t, fromisoformat (isoformat t) = some t

/-- Ids and times that are their own text. -/
def selfText : PayloadText String String :=
  ⟨id, some, id, some, fun _ => rfl, fun _ => rfl⟩

structure RewritePayload where
  relationshipId : String
  sourceEntityId : String
  targetEntityId : String
  relationshipType : String

structure CommunityPayload where
  id : String
  summary : String
  memberIds : List String
  summaryDepth : ℕ

structure MirrorPayload where
  retireEntityIds : List String
  invalidateRelationshipIds : List String
  rewriteRelationships : List RewritePayload
  communities : List CommunityPayload
  appliedAt : Option String

section Payload

variable (text : PayloadText Id T)

/-- `mirror_payload` -/
def mirrorPayload [DecidableEq Id] (op : OpKind) (before : UndoBefore Id) (appliedAt : Option T) :
    MirrorPayload :=
  let targets := extractMirrorTargets op before
  { retireEntityIds := targets.retireEntityIds.map text.str
    invalidateRelationshipIds := targets.invalidateRelationshipIds.map text.str
    rewriteRelationships := targets.rewriteRelationships.map fun rw =>
      ⟨text.str rw.relationshipId, text.str rw.sourceEntityId, text.str rw.targetEntityId,
        rw.relationshipType⟩
    communities := (extractCommunityTargets op before).map fun c =>
      ⟨text.str c.id, c.summary, c.memberIds.map text.str, c.summaryDepth⟩
    appliedAt := appliedAt.map text.isoformat }

/-- `targets_from_payload`: an id that does not parse is left out. -/
def targetsFromPayload (payload : MirrorPayload) : MirrorTargets Id :=
  { retireEntityIds := payload.retireEntityIds.filterMap text.uuid
    invalidateRelationshipIds := payload.invalidateRelationshipIds.filterMap text.uuid
    rewriteRelationships := payload.rewriteRelationships.filterMap fun rw => do
      let rel ← text.uuid rw.relationshipId
      let src ← text.uuid rw.sourceEntityId
      let tgt ← text.uuid rw.targetEntityId
      return ⟨rel, src, tgt, rw.relationshipType⟩ }

/-- `communities_from_payload` -/
def communitiesFromPayload (payload : MirrorPayload) : List (CommunityNode Id) :=
  payload.communities.filterMap fun c => do
    let id ← text.uuid c.id
    return ⟨id, c.summary, c.memberIds.filterMap text.uuid, depthOr (some c.summaryDepth)⟩

/-- `_parse_applied_at` -/
def parseAppliedAt (payload : MirrorPayload) (fallback : T) : T :=
  (payload.appliedAt.bind text.fromisoformat).getD fallback

theorem filterMap_uuid_str (ids : List Id) : (ids.map text.str).filterMap text.uuid = ids := by
  rw [List.filterMap_map]
  have h : text.uuid ∘ text.str = some := funext text.uuid_str
  rw [h, List.filterMap_some]

theorem depthOr_depthOr (depth : Option ℕ) : depthOr (some (depthOr depth)) = depthOr depth := by
  rcases depth with _ | _ | n
  · rfl
  · rfl
  · rfl

/-- **A payload carries exactly the targets of its op.** -/
theorem targetsFromPayload_mirrorPayload [DecidableEq Id] (op : OpKind) (before : UndoBefore Id)
    (appliedAt : Option T) :
    targetsFromPayload text (mirrorPayload text op before appliedAt) = extractMirrorTargets op before := by
  unfold targetsFromPayload mirrorPayload
  simp only [filterMap_uuid_str]
  have hid : ((fun rw : RewritePayload => do
      let rel ← text.uuid rw.relationshipId
      let src ← text.uuid rw.sourceEntityId
      let tgt ← text.uuid rw.targetEntityId
      return (⟨rel, src, tgt, rw.relationshipType⟩ : RewriteEntry Id)) ∘ fun rw : RewriteEntry Id =>
      ⟨text.str rw.relationshipId, text.str rw.sourceEntityId, text.str rw.targetEntityId,
        rw.relationshipType⟩) = some := by
    funext rw
    simp [text.uuid_str]
  rw [List.filterMap_map, hid, List.filterMap_some]

theorem communitiesFromPayload_mirrorPayload [DecidableEq Id] (op : OpKind) (before : UndoBefore Id)
    (appliedAt : Option T) :
    communitiesFromPayload text (mirrorPayload text op before appliedAt) =
      extractCommunityTargets op before := by
  unfold communitiesFromPayload mirrorPayload
  simp only [List.filterMap_map]
  unfold extractCommunityTargets
  split
  · simp [text.uuid_str, depthOr_depthOr]
  · simp

end Payload

/-! ## The graph -/

@[ext] structure GraphEdge (Id T : Type) where
  id : Id
  sourceEntityId : Id
  targetEntityId : Id
  validUntil : Option T
deriving DecidableEq

structure GraphNode (Id T : Type) where
  id : Id
  validUntil : Option T
deriving DecidableEq

structure MirrorGraph (Id T : Type) where
  edges : Table Id (GraphEdge Id T) GraphEdge.id
  nodes : Table Id (GraphNode Id T) GraphNode.id
  communities : Id → Option (CommunityNode Id)

namespace MirrorGraph

variable [DecidableEq Id] (g : MirrorGraph Id T)

/-- `rewrite_relationship_endpoints_batch` sets the endpoints of the edge with each id. -/
def rewriteRelationshipEndpointsBatch (rewrites : List (RewriteEntry Id)) : MirrorGraph Id T :=
  { g with
    edges := rewrites.foldl (fun edges rw => edges.update (fun e => e.id = rw.relationshipId)
      (fun e => { e with sourceEntityId := rw.sourceEntityId, targetEntityId := rw.targetEntityId })
      fun _ => rfl) g.edges }

/-- `soft_invalidate_relationships_batch` stamps the live edges of the ids. -/
def softInvalidateRelationshipsBatch (ids : List Id) (stamp : T) : MirrorGraph Id T :=
  { g with
    edges := g.edges.update (fun e => decide (e.id ∈ ids) && e.validUntil.isNone)
      (fun e => { e with validUntil := some stamp }) fun _ => rfl }

/-- `soft_retire_entities_batch` stamps the live nodes of the ids. -/
def softRetireEntitiesBatch (ids : List Id) (stamp : T) : MirrorGraph Id T :=
  { g with
    nodes := g.nodes.update (fun n => decide (n.id ∈ ids) && n.validUntil.isNone)
      (fun n => { n with validUntil := some stamp }) fun _ => rfl }

/-- `materialize_communities_batch` merges each node on its id. -/
def materializeCommunitiesBatch (nodes : List (CommunityNode Id)) : MirrorGraph Id T :=
  { g with communities := nodes.foldl (fun cs node => Function.update cs node.id (some node)) g.communities }

/-- `apply_mirror_targets` -/
def applyMirrorTargets (targets : MirrorTargets Id) (stamp : T)
    (communities : List (CommunityNode Id)) : MirrorGraph Id T :=
  (((g.rewriteRelationshipEndpointsBatch targets.rewriteRelationships).softInvalidateRelationshipsBatch
    targets.invalidateRelationshipIds stamp).softRetireEntitiesBatch
    targets.retireEntityIds stamp).materializeCommunitiesBatch communities

/-- `apply_mirror_payload` -/
def applyMirrorPayload (text : PayloadText Id T) (payload : MirrorPayload) (fallbackStamp : T) :
    MirrorGraph Id T :=
  g.applyMirrorTargets (targetsFromPayload text payload) (parseAppliedAt text payload fallbackStamp)
    (communitiesFromPayload text payload)

/-- The targets on one edge: the last endpoints that are set, then the stamp. -/
def mirrorEdge (targets : MirrorTargets Id) (stamp : T) (e : GraphEdge Id T) : GraphEdge Id T :=
  let moved := targets.rewriteRelationships.foldl (fun e rw => if e.id = rw.relationshipId then
    { e with sourceEntityId := rw.sourceEntityId, targetEntityId := rw.targetEntityId } else e) e
  if moved.id ∈ targets.invalidateRelationshipIds ∧ moved.validUntil = none then
    { moved with validUntil := some stamp } else moved

theorem edges_applyMirrorTargets (targets : MirrorTargets Id) (stamp : T)
    (communities : List (CommunityNode Id)) :
    (g.applyMirrorTargets targets stamp communities).edges.rows =
      g.edges.rows.map (mirrorEdge targets stamp) := by
  simp only [applyMirrorTargets, materializeCommunitiesBatch, softRetireEntitiesBatch,
    softInvalidateRelationshipsBatch, rewriteRelationshipEndpointsBatch]
  rw [Table.rows_update, Table.rows_foldl_update
    (fun (rw : RewriteEntry Id) (e : GraphEdge Id T) => decide (e.id = rw.relationshipId))
    (fun rw e => { e with sourceEntityId := rw.sourceEntityId, targetEntityId := rw.targetEntityId })
    fun _ _ => rfl, List.map_map]
  apply List.map_congr_left
  intro e _
  simp [mirrorEdge]

/-- The targets on one node. -/
def mirrorNode (targets : MirrorTargets Id) (stamp : T) (n : GraphNode Id T) : GraphNode Id T :=
  if n.id ∈ targets.retireEntityIds ∧ n.validUntil = none then { n with validUntil := some stamp } else n

theorem nodes_applyMirrorTargets (targets : MirrorTargets Id) (stamp : T)
    (communities : List (CommunityNode Id)) :
    (g.applyMirrorTargets targets stamp communities).nodes.rows =
      g.nodes.rows.map (mirrorNode targets stamp) := by
  simp only [applyMirrorTargets, materializeCommunitiesBatch, softRetireEntitiesBatch,
    softInvalidateRelationshipsBatch, rewriteRelationshipEndpointsBatch]
  rw [Table.rows_update]
  apply List.map_congr_left
  intro n _
  simp [mirrorNode]

omit g in
theorem mirrorNode_spec (targets : MirrorTargets Id) (stamp : T) (n : GraphNode Id T) :
    (mirrorNode targets stamp n).id = n.id ∧
      ((mirrorNode targets stamp n).validUntil = none ↔
        n.validUntil = none ∧ n.id ∉ targets.retireEntityIds) := by
  unfold mirrorNode
  split
  · rename_i h
    exact ⟨rfl, ⟨fun h' => (by cases h'), fun h' => absurd h.1 h'.2⟩⟩
  · rename_i h
    exact ⟨rfl, ⟨fun hnone => ⟨hnone, fun hmem => h ⟨hmem, hnone⟩⟩, fun h' => h'.1⟩⟩

end MirrorGraph

/-! ## An op with one canonical entity -/

section Substitution

variable [DecidableEq Id] {c a : Id} {as : List Id}

/-- The map of the op: each absorbed entity to the canonical one. -/
def canonicalOf (c : Id) (as : List Id) (x : Id) : Id := if x ∈ as then c else x

@[simp] theorem canonicalOf_nil (x : Id) : canonicalOf c [] x = x := by simp [canonicalOf]

@[simp] theorem canonicalOf_canonical : canonicalOf c as c = c := by
  unfold canonicalOf
  split
  · rfl
  · rfl

theorem canonicalOf_of_mem {x : Id} (h : x ∈ as) : canonicalOf c as x = c := if_pos h

theorem canonicalOf_of_not_mem {x : Id} (h : x ∉ as) : canonicalOf c as x = x := if_neg h

/-- The first merge, then the others. -/
theorem canonicalOf_cons (x : Id) :
    canonicalOf c (a :: as) x = canonicalOf c as (redirect c a x) := by
  by_cases h : x = a
  · rw [redirect, if_pos h, canonicalOf_canonical, canonicalOf_of_mem (by simp [h])]
  · rw [redirect, if_neg h]
    simp [canonicalOf, h]

theorem canonicalOf_redirect (h : a ∈ as) (x : Id) :
    canonicalOf c as (redirect c a x) = canonicalOf c as x := by
  by_cases hx : x = a
  · rw [redirect, if_pos hx, canonicalOf_canonical, hx, canonicalOf_of_mem h]
  · rw [redirect, if_neg hx]

/-- One of the two ends is absorbed, and the op makes them one. -/
def endsCollapse (c : Id) (as : List Id) (x y : Id) : Bool :=
  (decide (x ∈ as) || decide (y ∈ as)) && decide (canonicalOf c as x = canonicalOf c as y)

theorem endsCollapse_cons_of_ne {x y : Id} (hx : x ≠ a) (hy : y ≠ a) :
    endsCollapse c (a :: as) x y = endsCollapse c as x y := by
  simp [endsCollapse, canonicalOf_cons, redirect, hx, hy]

/-- Ends that a merge moves collapse at once or under the merges after it. -/
theorem endsCollapse_cons_of_eq {x y : Id} (h : x = a ∨ y = a) :
    endsCollapse c (a :: as) x y =
      (decide (redirect c a x = redirect c a y) ||
        endsCollapse c as (redirect c a x) (redirect c a y)) := by
  have hmem : (decide (x ∈ a :: as) || decide (y ∈ a :: as)) = true := by
    rcases h with h | h
    · simp [h]
    · simp [h]
  rw [endsCollapse, hmem, Bool.true_and, canonicalOf_cons, canonicalOf_cons]
  by_cases heq : redirect c a x = redirect c a y
  · simp [heq]
  · rw [decide_eq_false heq, Bool.false_or, endsCollapse]
    by_cases hmap : canonicalOf c as (redirect c a x) = canonicalOf c as (redirect c a y)
    · -- distinct ends that the other merges make one: one of them is absorbed
      have hsome : redirect c a x ∈ as ∨ redirect c a y ∈ as := by
        by_contra hno
        rw [not_or] at hno
        rw [canonicalOf_of_not_mem hno.1, canonicalOf_of_not_mem hno.2] at hmap
        exact heq hmap
      rcases hsome with hs | hs
      · simp [hmap, hs]
      · simp [hmap, hs]
    · simp [hmap]

/-- An end of the row is absorbed. -/
def Relationship.meets (as : List Id) (r : Relationship Id T) : Bool :=
  decide (r.sourceEntityId ∈ as) || decide (r.targetEntityId ∈ as)

/-- An end of the row is absorbed, and the op makes its two ends one. -/
def Relationship.collapses (c : Id) (as : List Id) (r : Relationship Id T) : Bool :=
  endsCollapse c as r.sourceEntityId r.targetEntityId

theorem collapses_eq (r : Relationship Id T) : r.collapses c as =
    (r.meets as && decide (canonicalOf c as r.sourceEntityId = canonicalOf c as r.targetEntityId)) :=
  rfl

/-- The row with the canonical entity at each absorbed end. -/
def Relationship.substituted (c : Id) (as : List Id) (r : Relationship Id T) : Relationship Id T :=
  { r with
    sourceEntityId := canonicalOf c as r.sourceEntityId
    targetEntityId := canonicalOf c as r.targetEntityId }

variable {opId : Id} {now : T} {r : Relationship Id T}

theorem meets_iff : r.meets as = true ↔ r.sourceEntityId ∈ as ∨ r.targetEntityId ∈ as := by
  simp [Relationship.meets]

theorem substituted_of_not_meets (h : r.meets as = false) : r.substituted c as = r := by
  rw [← Bool.not_eq_true, meets_iff, not_or] at h
  unfold Relationship.substituted
  rw [canonicalOf_of_not_mem h.1, canonicalOf_of_not_mem h.2]

theorem stepRow_of_loops (htouch : r.touches a = true) (hloops : r.loops c a = true) :
    stepRow opId now c a r = { r with invalidatedAt := some now, invalidatedBy := some opId } := by
  simp [stepRow, htouch, rewritten, hloops]

theorem stepRow_of_not_loops (htouch : r.touches a = true) (hloops : r.loops c a = false) :
    stepRow opId now c a r = { r with
      sourceEntityId := redirect c a r.sourceEntityId
      targetEntityId := redirect c a r.targetEntityId } := by
  simp [stepRow, htouch, rewritten, hloops]

theorem stepRow_of_not_touches (htouch : r.touches a = false) : stepRow opId now c a r = r := by
  simp [stepRow, htouch]

theorem not_live_of_loops (htouch : r.touches a = true) (hloops : r.loops c a = true) :
    (stepRow opId now c a r).live = false := by
  rw [stepRow_of_loops htouch hloops]
  rfl

theorem ends_of_not_touches (hlive : r.live = true) (htouch : r.touches a = false) :
    r.sourceEntityId ≠ a ∧ r.targetEntityId ≠ a := by
  rw [← Bool.not_eq_true, touches_iff] at htouch
  exact ⟨fun h => htouch ⟨.inl h, hlive⟩, fun h => htouch ⟨.inr h, hlive⟩⟩

/-- A dead row stays as it is. -/
theorem applyRow_of_dead (h : r.live = false) : applyRow opId now c as r = r := by
  apply Untouched.applyRow
  intro hlive
  rw [h] at hlive
  cases hlive

/-- **The merges of an op are one simultaneous substitution.**  A live row that does not
collapse gets the canonical entity at each absorbed end; one that does is dead. -/
theorem applyRow_of_live (hlive : r.live = true) :
    (r.collapses c as = false → applyRow opId now c as r = r.substituted c as) ∧
      (r.collapses c as = true → (applyRow opId now c as r).live = false) := by
  induction as generalizing r with
  | nil => simp [applyRow, Relationship.substituted, Relationship.collapses, endsCollapse]
  | cons a as ih =>
      have hcons : applyRow opId now c (a :: as) r = applyRow opId now c as (stepRow opId now c a r) := rfl
      rw [hcons, Relationship.collapses]
      cases htouch : r.touches a with
      | false =>
          obtain ⟨hs, ht⟩ := ends_of_not_touches hlive htouch
          have hsub : r.substituted c (a :: as) = r.substituted c as := by
            simp [Relationship.substituted, canonicalOf_cons, redirect, hs, ht]
          rw [stepRow_of_not_touches htouch, endsCollapse_cons_of_ne hs ht, hsub]
          exact ih hlive
      | true =>
          rw [endsCollapse_cons_of_eq (touches_iff.mp htouch).1]
          cases hloops : r.loops c a with
          | true =>
              have hdead : (stepRow opId now c a r).live = false := not_live_of_loops htouch hloops
              replace hloops : decide (redirect c a r.sourceEntityId = redirect c a r.targetEntityId) =
                true := hloops
              rw [hloops, applyRow_of_dead hdead]
              exact ⟨fun h => (by cases h), fun _ => hdead⟩
          | false =>
              have hstep := @stepRow_of_not_loops _ _ _ c a opId now r htouch hloops
              have hlive' : (stepRow opId now c a r).live = true := by
                rw [hstep]
                exact hlive
              have hsub : (stepRow opId now c a r).substituted c as = r.substituted c (a :: as) := by
                simp [hstep, Relationship.substituted, canonicalOf_cons]
              have hcol : (stepRow opId now c a r).collapses c as =
                  endsCollapse c as (redirect c a r.sourceEntityId) (redirect c a r.targetEntityId) := by
                rw [hstep]
                rfl
              replace hloops : decide (redirect c a r.sourceEntityId = redirect c a r.targetEntityId) =
                false := hloops
              rw [hloops, Bool.false_or, ← hcol, ← hsub]
              exact ih hlive'

theorem relationshipType_applyRow : ∀ r : Relationship Id T,
    (applyRow opId now c as r).relationshipType = r.relationshipType := by
  unfold applyRow
  induction as with
  | nil => exact fun r => rfl
  | cons a as ih =>
      intro r
      rw [List.foldl_cons, ih, stepRow]
      split
      · unfold rewritten
        split
        · rfl
        · rfl
      · rfl

end Substitution

/-! ## The targets of an op, edge by edge -/

section Targets

variable [DecidableEq Id] {opId : Id} {now : T} {c : Id} {band : VerifierBand}
  {judge : MergeEntry Id → VerifierDecision} {f : Id → Id}

theorem foldl_absorbedToCanonical {applied : List (MergeUndo Id)}
    (hc : ∀ m ∈ applied, m.canonicalId = c) (x : Id) : ∀ found : Option Id,
    applied.foldl (fun found m => if m.absorbedId = x then some m.canonicalId else found) found =
      if x ∈ applied.map MergeUndo.absorbedId then some c else found := by
  induction applied with
  | nil => simp
  | cons m ms ih =>
      intro found
      rw [List.foldl_cons, ih fun m' hm => hc m' (List.mem_cons_of_mem _ hm)]
      have hm := hc m List.mem_cons_self
      by_cases hx : m.absorbedId = x
      · simp [hx, hm]
      · simp [hx, Ne.symm hx]

/-- With one canonical entity the map of the mirror is that of the op. -/
theorem absorbedToCanonical_eq {applied : List (MergeUndo Id)}
    (hc : ∀ m ∈ applied, m.canonicalId = c) :
    absorbedToCanonical applied = canonicalOf c (applied.map MergeUndo.absorbedId) := by
  funext x
  rw [absorbedToCanonical, foldl_absorbedToCanonical hc, canonicalOf]
  split
  · rfl
  · rfl

/-- The applied merges of a record: those that were authorized. -/
theorem applied_applyMerges (entries : List (MergeEntry Id)) : ∀ s : DreamTables Id T,
    (∀ m ∈ entries, m.canonicalId = c) →
    (((applyMerges band judge opId now entries s).2.filter MergeUndo.applied).map
      MergeUndo.absorbedId = absorbedIds band judge entries) ∧
    ∀ m ∈ (applyMerges band judge opId now entries s).2.filter MergeUndo.applied,
      m.canonicalId = c := by
  induction entries with
  | nil => simp [applyMerges, absorbedIds]
  | cons entry entries ih =>
      intro s hc
      have hentry := hc entry List.mem_cons_self
      have hrest : ∀ m ∈ entries, m.canonicalId = c := fun m hm => hc m (List.mem_cons_of_mem _ hm)
      rw [absorbedIds_cons]
      rcases @applyMerges_cons _ _ _ opId now band judge entry entries s with ⟨hauth, heq⟩ | ⟨hauth, heq⟩
      · obtain ⟨h, h'⟩ := ih (applyMerge opId now (maybeRunVerifier band judge entry) entry s).1 hrest
        rw [heq, hauth, if_pos rfl]
        simp only
        rw [List.filter_cons_of_pos rfl]
        refine ⟨?_, ?_⟩
        · rw [List.map_cons, h]
          rfl
        · intro m hm
          rcases List.mem_cons.mp hm with rfl | hm
          · exact hentry
          · exact h' m hm
      · rw [heq, hauth]
        simp only
        rw [List.filter_cons_of_neg (by simp)]
        exact ih s hrest

/-- The edges one merge invalidates: those it touches whose ends the op makes one. -/
theorem mem_mergeInvalidated {entry : MergeEntry Id} {v : Option VerifierDecision}
    {s : DreamTables Id T}
    (hf : ∀ x, f (redirect entry.canonicalId entry.absorbedId x) = f x) (x : Id) :
    x ∈ mergeInvalidated f (applyMerge opId now v entry s).2 ↔
      ∃ r ∈ s.relationships.rows, r.touches entry.absorbedId = true ∧
        f r.sourceEntityId = f r.targetEntityId ∧ r.id = x := by
  have hloop : ∀ r : Relationship Id T, r.loops entry.canonicalId entry.absorbedId = true →
      f r.sourceEntityId = f r.targetEntityId := by
    intro r h
    rw [← hf r.sourceEntityId, ← hf r.targetEntityId]
    exact congrArg f (of_decide_eq_true h)
  unfold mergeInvalidated applyMerge selectRelationshipsTouching
  simp only [List.mem_append, List.mem_dedup, List.mem_map, List.mem_filter, Bool.and_eq_true,
    decide_eq_true_eq]
  constructor
  · rintro (⟨r, ⟨⟨hr, htouch⟩, hl⟩, rfl⟩ | ⟨_, ⟨⟨r, ⟨hr, htouch⟩, rfl⟩, -, heq⟩, rfl⟩)
    · exact ⟨r, hr, htouch, hloop r hl, rfl⟩
    · exact ⟨r, hr, htouch, heq, rfl⟩
  · rintro ⟨r, hr, htouch, heq, rfl⟩
    by_cases hl : ∃ r', ((r' ∈ s.relationships.rows ∧ r'.touches entry.absorbedId = true) ∧
        r'.loops entry.canonicalId entry.absorbedId = true) ∧ r'.id = r.id
    · exact .inl hl
    · exact .inr ⟨r.snapshot, ⟨⟨r, ⟨hr, htouch⟩, rfl⟩, hl, heq⟩, rfl⟩

/-- The edges one merge redirects: those it touches whose ends stay apart and move. -/
theorem mem_mergeRewritten {entry : MergeEntry Id} {v : Option VerifierDecision}
    {s : DreamTables Id T}
    (hf : ∀ x, f (redirect entry.canonicalId entry.absorbedId x) = f x) (w : RewriteEntry Id) :
    w ∈ mergeRewritten f (applyMerge opId now v entry s).2 ↔
      ∃ r ∈ s.relationships.rows, r.touches entry.absorbedId = true ∧
        f r.sourceEntityId ≠ f r.targetEntityId ∧
        ¬ (f r.sourceEntityId = r.sourceEntityId ∧ f r.targetEntityId = r.targetEntityId) ∧
        w = ⟨r.id, f r.sourceEntityId, f r.targetEntityId, r.relationshipType⟩ := by
  unfold mergeRewritten applyMerge selectRelationshipsTouching
  simp only [List.mem_map, List.mem_filter, Bool.and_eq_true, decide_eq_true_eq,
    Bool.not_eq_true', Bool.and_eq_false_iff, decide_eq_false_iff_not]
  constructor
  · rintro ⟨_, ⟨⟨r, ⟨hr, htouch⟩, rfl⟩, ⟨-, hne⟩, hmoved⟩, rfl⟩
    refine ⟨r, hr, htouch, hne, ?_, rfl⟩
    rintro ⟨hs, ht⟩
    rcases hmoved with h | h
    · exact h hs
    · exact h ht
  · rintro ⟨r, hr, htouch, hne, hmoved, rfl⟩
    refine ⟨r.snapshot, ⟨⟨r, ⟨hr, htouch⟩, rfl⟩, ⟨?_, hne⟩, ?_⟩, rfl⟩
    · -- a self-loop of this merge would have its ends made one
      rintro ⟨r', ⟨⟨hr', -⟩, hl⟩, hid⟩
      have heq := List.inj_on_of_nodup_map s.relationships.nodup hr' hr hid
      rw [heq] at hl
      apply hne
      rw [← hf r.sourceEntityId, ← hf r.targetEntityId]
      exact congrArg f (of_decide_eq_true hl)
    · rw [← not_and_or]
      exact hmoved

/-- The forms of a row that the merges of an op take snapshots of. -/
def rowForms (opId : Id) (now : T) (c : Id) : List Id → Relationship Id T → List (Relationship Id T)
  | [], _ => []
  | a :: as, r =>
      (if r.touches a then [r] else []) ++ rowForms opId now c as (stepRow opId now c a r)

theorem mem_rowForms_cons {a : Id} {as : List Id} {r row : Relationship Id T} :
    row ∈ rowForms opId now c (a :: as) r ↔
      r.touches a = true ∧ row = r ∨ row ∈ rowForms opId now c as (stepRow opId now c a r) := by
  rw [rowForms, List.mem_append]
  cases r.touches a
  · simp
  · simp

/-- The targets of an op in terms of the forms of each row. -/
theorem mem_targets (entries : List (MergeEntry Id)) : ∀ s : DreamTables Id T,
    (∀ m ∈ entries, m.canonicalId = c) →
    (∀ a ∈ absorbedIds band judge entries, ∀ x, f (redirect c a x) = f x) →
    (∀ x, x ∈ ((applyMerges band judge opId now entries s).2.filter MergeUndo.applied).flatMap
        (mergeInvalidated f) ↔
      ∃ r ∈ s.relationships.rows, r.id = x ∧
        ∃ row ∈ rowForms opId now c (absorbedIds band judge entries) r,
          f row.sourceEntityId = f row.targetEntityId) ∧
    ∀ w, w ∈ ((applyMerges band judge opId now entries s).2.filter MergeUndo.applied).flatMap
        (mergeRewritten f) ↔
      ∃ r ∈ s.relationships.rows,
        ∃ row ∈ rowForms opId now c (absorbedIds band judge entries) r,
          f row.sourceEntityId ≠ f row.targetEntityId ∧
          ¬ (f row.sourceEntityId = row.sourceEntityId ∧ f row.targetEntityId = row.targetEntityId) ∧
          w = ⟨row.id, f row.sourceEntityId, f row.targetEntityId, row.relationshipType⟩ := by
  induction entries with
  | nil => simp [applyMerges, absorbedIds, rowForms]
  | cons entry entries ih =>
      intro s hc hf
      have hentry := hc entry List.mem_cons_self
      have hrest : ∀ m ∈ entries, m.canonicalId = c := fun m hm => hc m (List.mem_cons_of_mem _ hm)
      rw [absorbedIds_cons] at hf ⊢
      rcases @applyMerges_cons _ _ _ opId now band judge entry entries s with ⟨hauth, heq⟩ | ⟨hauth, heq⟩
      · rw [hauth, if_pos rfl] at hf ⊢
        have hhere : ∀ x, f (redirect entry.canonicalId entry.absorbedId x) = f x := by
          rw [hentry]
          exact hf _ List.mem_cons_self
        obtain ⟨hi, hw⟩ := ih (applyMerge opId now (maybeRunVerifier band judge entry) entry s).1
          hrest fun a ha => hf a (List.mem_cons_of_mem _ ha)
        rw [rows_applyMerge, hentry] at hi hw
        rw [heq]
        simp only
        rw [List.filter_cons_of_pos rfl]
        refine ⟨fun x => ?_, fun w => ?_⟩
        · rw [List.flatMap_cons, List.mem_append, hi, mem_mergeInvalidated hhere]
          simp only [mem_rowForms_cons, List.mem_map]
          constructor
          · rintro (⟨r, hr, htouch, heq, hid⟩ | ⟨_, ⟨r, hr, rfl⟩, hid, row, hrow, heq⟩)
            · exact ⟨r, hr, hid, r, .inl ⟨htouch, rfl⟩, heq⟩
            · exact ⟨r, hr, (id_stepRow _ r).symm.trans hid, row, .inr hrow, heq⟩
          · rintro ⟨r, hr, hid, row, ⟨htouch, rfl⟩ | hrow, heq⟩
            · exact .inl ⟨_, hr, htouch, heq, hid⟩
            · exact .inr ⟨_, ⟨r, hr, rfl⟩, (id_stepRow _ r).trans hid, row, hrow, heq⟩
        · rw [List.flatMap_cons, List.mem_append, hw, mem_mergeRewritten hhere]
          simp only [mem_rowForms_cons, List.mem_map]
          constructor
          · rintro (⟨r, hr, htouch, h⟩ | ⟨_, ⟨r, hr, rfl⟩, row, hrow, h⟩)
            · exact ⟨r, hr, r, .inl ⟨htouch, rfl⟩, h⟩
            · exact ⟨r, hr, row, .inr hrow, h⟩
          · rintro ⟨r, hr, row, ⟨htouch, rfl⟩ | hrow, h⟩
            · exact .inl ⟨_, hr, htouch, h⟩
            · exact .inr ⟨_, ⟨r, hr, rfl⟩, row, hrow, h⟩
      · rw [hauth] at hf ⊢
        rw [heq]
        simp only
        rw [List.filter_cons_of_neg (by simp)]
        exact ih s hrest hf

/-- Each form is the row moved part of the way, and the map of the op does not see how
far. -/
theorem of_mem_rowForms {as : List Id} (hf : ∀ a ∈ as, ∀ x, f (redirect c a x) = f x)
    {row : Relationship Id T} : ∀ {r : Relationship Id T}, row ∈ rowForms opId now c as r →
    r.live = true ∧ r.meets as = true ∧ row.id = r.id ∧
      f row.sourceEntityId = f r.sourceEntityId ∧ f row.targetEntityId = f r.targetEntityId := by
  induction as with
  | nil => exact fun h => (by cases h)
  | cons a as ih =>
      intro r h
      have ha := hf a List.mem_cons_self
      have hrest : ∀ a ∈ as, ∀ x, f (redirect c a x) = f x :=
        fun b hb => hf b (List.mem_cons_of_mem _ hb)
      have hmeets : r.touches a = true → r.meets (a :: as) = true := by
        intro htouch
        rw [meets_iff]
        rcases (touches_iff.mp htouch).1 with h | h
        · exact .inl (by simp [h])
        · exact .inr (by simp [h])
      rcases mem_rowForms_cons.mp h with ⟨htouch, rfl⟩ | h
      · exact ⟨(touches_iff.mp htouch).2, hmeets htouch, rfl, rfl, rfl⟩
      · obtain ⟨hlive, hm, hid, hs, ht⟩ := ih hrest h
        rw [id_stepRow] at hid
        cases htouch : r.touches a with
        | false =>
            rw [stepRow_of_not_touches htouch] at hlive hm hs ht
            refine ⟨hlive, ?_, hid, hs, ht⟩
            rw [meets_iff] at hm ⊢
            exact hm.imp (List.mem_cons_of_mem _) (List.mem_cons_of_mem _)
        | true =>
            cases hloops : r.loops c a with
            | true =>
                rw [not_live_of_loops htouch hloops] at hlive
                cases hlive
            | false =>
                rw [stepRow_of_not_loops htouch hloops] at hs ht
                refine ⟨(touches_iff.mp htouch).2, hmeets htouch, hid, ?_, ?_⟩
                · rw [hs, ha]
                · rw [ht, ha]

/-- The first merge that touches a row finds it as it was. -/
theorem self_mem_rowForms {as : List Id} {r : Relationship Id T} (hlive : r.live = true)
    (hm : r.meets as = true) : r ∈ rowForms opId now c as r := by
  induction as with
  | nil => simp [Relationship.meets] at hm
  | cons a as ih =>
      rw [mem_rowForms_cons]
      cases htouch : r.touches a with
      | true => exact .inl ⟨rfl, rfl⟩
      | false =>
          obtain ⟨hs, ht⟩ := ends_of_not_touches hlive htouch
          rw [stepRow_of_not_touches htouch]
          refine .inr (ih ?_)
          simpa [Relationship.meets, hs, ht] using hm

/-! ## The mirror -/

/-- The undo record of the op, as the mirror reads it. -/
def dedupeUndo (band : VerifierBand) (judge : MergeEntry Id → VerifierDecision) (now : T)
    (op : DedupeOp Id) (s : DreamTables Id T) : UndoBefore Id :=
  .merges (applyVectorcypherDedupeEntities band judge now op s).2.merges

/-- `extract_mirror_targets` of the undo record of the op. -/
def targetsOf (band : VerifierBand) (judge : MergeEntry Id → VerifierDecision) (now : T)
    (op : DedupeOp Id) (s : DreamTables Id T) : MirrorTargets Id :=
  extractMirrorTargets .vectorcypherDedupeEntities (dedupeUndo band judge now op s)

section Op

variable {op : DedupeOp Id} {s : DreamTables Id T} (hc : ∀ m ∈ op.merges, m.canonicalId = c)
include hc

theorem targetsOf_eq : targetsOf band judge now op s =
    let applied := (applyMerges band judge op.opId now op.merges s).2.filter MergeUndo.applied
    let remap := canonicalOf c (absorbedIds band judge op.merges)
    { retireEntityIds := absorbedIds band judge op.merges
      invalidateRelationshipIds := applied.flatMap (mergeInvalidated remap)
      rewriteRelationships := applied.flatMap (mergeRewritten remap) } := by
  obtain ⟨hids, hcan⟩ := @applied_applyMerges _ _ _ op.opId now c band judge op.merges s hc
  show dedupeTargets (applyMerges band judge op.opId now op.merges s).2 = _
  unfold dedupeTargets
  simp only
  rw [absorbedToCanonical_eq hcan, hids]

/-- **An edge is invalidated by the mirror exactly if it is live and collapses.** -/
theorem mem_invalidated_iff {r : Relationship Id T} (hr : r ∈ s.relationships.rows) :
    r.id ∈ (targetsOf band judge now op s).invalidateRelationshipIds ↔
      r.live = true ∧ r.collapses c (absorbedIds band judge op.merges) = true := by
  have hf : ∀ a ∈ absorbedIds band judge op.merges, ∀ x,
      canonicalOf c (absorbedIds band judge op.merges) (redirect c a x) =
        canonicalOf c (absorbedIds band judge op.merges) x := fun a ha => canonicalOf_redirect ha
  rw [targetsOf_eq hc, (@mem_targets _ _ _ op.opId now c band judge _ op.merges s hc hf).1]
  rw [collapses_eq, Bool.and_eq_true, decide_eq_true_eq]
  constructor
  · rintro ⟨r', hr', hid, row, hrow, heq⟩
    have hrr := List.inj_on_of_nodup_map s.relationships.nodup hr' hr hid
    subst hrr
    obtain ⟨hlive, hm, -, hs, ht⟩ := of_mem_rowForms hf hrow
    exact ⟨hlive, hm, hs.symm.trans (heq.trans ht)⟩
  · rintro ⟨hlive, hm, heq⟩
    exact ⟨r, hr, rfl, r, self_mem_rowForms hlive hm, heq⟩

/-- The endpoints that the mirror sets on an edge are those of the op, and it sets them
if the edge survives and moves. -/
theorem rewritten_endpoints {r : Relationship Id T} (hr : r ∈ s.relationships.rows) :
    (∀ w ∈ (targetsOf band judge now op s).rewriteRelationships, w.relationshipId = r.id →
      w.sourceEntityId = canonicalOf c (absorbedIds band judge op.merges) r.sourceEntityId ∧
      w.targetEntityId = canonicalOf c (absorbedIds band judge op.merges) r.targetEntityId) ∧
    (r.live = true → r.collapses c (absorbedIds band judge op.merges) = false →
      (∀ w ∈ (targetsOf band judge now op s).rewriteRelationships, w.relationshipId ≠ r.id) →
      r.substituted c (absorbedIds band judge op.merges) = r) := by
  have hf : ∀ a ∈ absorbedIds band judge op.merges, ∀ x,
      canonicalOf c (absorbedIds band judge op.merges) (redirect c a x) =
        canonicalOf c (absorbedIds band judge op.merges) x := fun a ha => canonicalOf_redirect ha
  have hmem := (@mem_targets _ _ _ op.opId now c band judge _ op.merges s hc hf).2
  rw [targetsOf_eq hc]
  constructor
  · intro w hw hid
    obtain ⟨r', hr', row, hrow, -, -, rfl⟩ := (hmem w).mp hw
    obtain ⟨-, -, hid', hs, ht⟩ := of_mem_rowForms hf hrow
    have hrr := List.inj_on_of_nodup_map s.relationships.nodup hr' hr (hid'.symm.trans hid)
    subst hrr
    exact ⟨hs, ht⟩
  · intro hlive hcol hno
    cases hm : r.meets (absorbedIds band judge op.merges) with
    | false => exact substituted_of_not_meets hm
    | true =>
        rw [collapses_eq, hm, Bool.true_and, decide_eq_false_iff_not] at hcol
        by_contra hmoved
        refine hno _ ((hmem _).mpr ⟨r, hr, r, self_mem_rowForms hlive hm, hcol, ?_, rfl⟩) rfl
        rintro ⟨hs, ht⟩
        apply hmoved
        unfold Relationship.substituted
        rw [hs, ht]

end Op

/-- Rewrites keep the id and the stamp of an edge; its endpoints are those of one of them,
or as they were if none is for it. -/
theorem rewrites_spec (ws : List (RewriteEntry Id)) : ∀ e : GraphEdge Id T,
    let e' := ws.foldl (fun e rw => if e.id = rw.relationshipId then
      { e with sourceEntityId := rw.sourceEntityId, targetEntityId := rw.targetEntityId } else e) e
    e'.id = e.id ∧ e'.validUntil = e.validUntil ∧
      ((∃ w ∈ ws, w.relationshipId = e.id ∧ e'.sourceEntityId = w.sourceEntityId ∧
        e'.targetEntityId = w.targetEntityId) ∨
      (∀ w ∈ ws, w.relationshipId ≠ e.id) ∧ e' = e) := by
  induction ws with
  | nil => exact fun e => ⟨rfl, rfl, .inr ⟨fun _ h => (by cases h), rfl⟩⟩
  | cons w ws ih =>
      intro e
      simp only [List.foldl_cons]
      by_cases h : e.id = w.relationshipId
      · rw [if_pos h]
        obtain ⟨hid, hv, hends⟩ := ih { e with
          sourceEntityId := w.sourceEntityId, targetEntityId := w.targetEntityId }
        refine ⟨hid, hv, .inl ?_⟩
        rcases hends with ⟨w', hw', hrel, hs⟩ | ⟨-, heq⟩
        · exact ⟨w', List.mem_cons_of_mem _ hw', hrel, hs⟩
        · refine ⟨w, List.mem_cons_self, h.symm, ?_, ?_⟩
          · rw [heq]
          · rw [heq]
      · rw [if_neg h]
        obtain ⟨hid, hv, hends⟩ := ih e
        refine ⟨hid, hv, ?_⟩
        rcases hends with ⟨w', hw', hrel, hs⟩ | ⟨hno, heq⟩
        · exact .inl ⟨w', List.mem_cons_of_mem _ hw', hrel, hs⟩
        · refine .inr ⟨fun w' hw' => ?_, heq⟩
          rcases List.mem_cons.mp hw' with rfl | hw'
          · exact Ne.symm h
          · exact hno w' hw'

/-- **What the mirror does to an edge.** -/
theorem mirrorEdge_spec (targets : MirrorTargets Id) (stamp : T) (e : GraphEdge Id T) :
    let e' := MirrorGraph.mirrorEdge targets stamp e
    e'.id = e.id ∧
      (e'.validUntil = none ↔ e.validUntil = none ∧ e.id ∉ targets.invalidateRelationshipIds) ∧
      ((∃ w ∈ targets.rewriteRelationships, w.relationshipId = e.id ∧
        e'.sourceEntityId = w.sourceEntityId ∧ e'.targetEntityId = w.targetEntityId) ∨
      (∀ w ∈ targets.rewriteRelationships, w.relationshipId ≠ e.id) ∧
        e'.sourceEntityId = e.sourceEntityId ∧ e'.targetEntityId = e.targetEntityId) := by
  intro e'
  obtain ⟨hid, hv, hends⟩ := rewrites_spec targets.rewriteRelationships e
  -- the stamp changes neither the id nor the endpoints
  have hstamp : e'.id = e.id ∧
      (e'.validUntil = none ↔ e.validUntil = none ∧ e.id ∉ targets.invalidateRelationshipIds) ∧
      e'.sourceEntityId = (targets.rewriteRelationships.foldl (fun e rw => if e.id = rw.relationshipId then
        { e with sourceEntityId := rw.sourceEntityId, targetEntityId := rw.targetEntityId } else e)
        e).sourceEntityId ∧
      e'.targetEntityId = (targets.rewriteRelationships.foldl (fun e rw => if e.id = rw.relationshipId then
        { e with sourceEntityId := rw.sourceEntityId, targetEntityId := rw.targetEntityId } else e)
        e).targetEntityId := by
    simp only [e', MirrorGraph.mirrorEdge, hid, hv]
    split
    · rename_i h
      refine ⟨rfl, ⟨fun h' => (by cases h'), fun h' => absurd h.1 h'.2⟩, rfl, rfl⟩
    · rename_i h
      refine ⟨hid, ?_, rfl, rfl⟩
      rw [hv]
      constructor
      · exact fun hnone => ⟨hnone, fun hmem => h ⟨hmem, hnone⟩⟩
      · exact fun h' => h'.1
  obtain ⟨hid', hv', hs, ht⟩ := hstamp
  refine ⟨hid', hv', ?_⟩
  rw [hs, ht]
  rcases hends with ⟨w, hw, hrel, hw'⟩ | ⟨hno, heq⟩
  · exact .inl ⟨w, hw, hrel, hw'⟩
  · refine .inr ⟨hno, ?_, ?_⟩
    · rw [heq]
    · rw [heq]

section Op

variable {op : DedupeOp Id} {s : DreamTables Id T} (hc : ∀ m ∈ op.merges, m.canonicalId = c)
include hc

/-- The mirror of the op on the edge of a live row: as the op on the row. -/
theorem mirrorEdge_of_row (stamp : T) {r : Relationship Id T} (hr : r ∈ s.relationships.rows)
    (hlive : r.live = true) :
    let e : GraphEdge Id T := ⟨r.id, r.sourceEntityId, r.targetEntityId, none⟩
    let e' := MirrorGraph.mirrorEdge (targetsOf band judge now op s) stamp e
    (r.collapses c (absorbedIds band judge op.merges) = true → e'.validUntil ≠ none) ∧
    (r.collapses c (absorbedIds band judge op.merges) = false →
      e' = ⟨r.id, canonicalOf c (absorbedIds band judge op.merges) r.sourceEntityId,
        canonicalOf c (absorbedIds band judge op.merges) r.targetEntityId, none⟩) := by
  obtain ⟨hends, hstays⟩ := @rewritten_endpoints _ _ _ now c band judge op s hc r hr
  have hinv := @mem_invalidated_iff _ _ _ now c band judge op s hc r hr
  intro e e'
  obtain ⟨hid, hv, hmoved⟩ := mirrorEdge_spec (targetsOf band judge now op s) stamp e
  refine ⟨fun hcol hnone => (hv.mp hnone).2 (hinv.mpr ⟨hlive, hcol⟩), fun hcol => ?_⟩
  have hnone : e'.validUntil = none := by
    refine hv.mpr ⟨rfl, ?_⟩
    rw [show e.id = r.id from rfl, hinv, hcol]
    simp
  have hsame : e'.sourceEntityId = canonicalOf c (absorbedIds band judge op.merges) r.sourceEntityId ∧
      e'.targetEntityId = canonicalOf c (absorbedIds band judge op.merges) r.targetEntityId := by
    rcases hmoved with ⟨w, hw, hrel, hs, ht⟩ | ⟨hno, hs, ht⟩
    · obtain ⟨hs', ht'⟩ := hends w hw hrel
      exact ⟨hs.trans hs', ht.trans ht'⟩
    · -- no rewrite for the edge: the op leaves its ends where they are
      have hstay := hstays hlive hcol hno
      exact ⟨hs.trans (congrArg Relationship.sourceEntityId hstay).symm,
        ht.trans (congrArg Relationship.targetEntityId hstay).symm⟩
  exact GraphEdge.ext hid hsame.1 hsame.2 hnone

end Op

end Targets

/-! ## Live edges -/

section LiveEdges

variable [DecidableEq Id] {now : T} {c : Id} {band : VerifierBand}
  {judge : MergeEntry Id → VerifierDecision} {op : DedupeOp Id} {s : DreamTables Id T}
  (pruned : Id → Bool)

/-- The row is read as an edge: it is not invalidated, nor closed by a `valid_to` or a
`valid_until`, which a dedupe neither reads nor writes. -/
def Relationship.shown (r : Relationship Id T) : Bool := r.live && !pruned r.id

/-- The live edges of the SQL store, with their endpoints. -/
def liveEdges (t : Table Id (Relationship Id T) Relationship.id) : List (Id × Id × Id) :=
  (t.rows.filter (Relationship.shown pruned)).map fun r =>
    (r.id, r.sourceEntityId, r.targetEntityId)

/-- The live edges of the graph. -/
def MirrorGraph.liveEdges (g : MirrorGraph Id T) : List (Id × Id × Id) :=
  (g.edges.rows.filter fun e => e.validUntil.isNone).map fun e =>
    (e.id, e.sourceEntityId, e.targetEntityId)

variable {pruned}

omit [DecidableEq Id] in
theorem shown_iff {r : Relationship Id T} :
    r.shown pruned = true ↔ r.live = true ∧ pruned r.id = false := by
  simp [Relationship.shown]

theorem shown_applyRow {opId : Id} {as : List Id} (r : Relationship Id T) :
    (applyRow opId now c as r).shown pruned = (r.shown pruned && !r.collapses c as) := by
  have hid : (applyRow opId now c as r).id = r.id := id_applyRow as r
  rw [Relationship.shown, Relationship.shown, hid]
  cases hlive : r.live with
  | false => rw [applyRow_of_dead hlive, hlive, Bool.false_and, Bool.false_and]
  | true =>
      obtain ⟨hkept, hdead⟩ := @applyRow_of_live _ _ _ c as opId now r hlive
      cases hcol : r.collapses c as with
      | true => rw [hdead hcol, Bool.false_and, Bool.not_true, Bool.and_false]
      | false =>
          rw [hkept hcol, Bool.not_false, Bool.and_true]
          congr

theorem rows_filter_map_applyRow {opId : Id} {as : List Id} (rows : List (Relationship Id T)) :
    (rows.map (applyRow opId now c as)).filter (Relationship.shown pruned) =
      (rows.filter fun r => r.shown pruned && !r.collapses c as).map (Relationship.substituted c as) := by
  rw [List.filter_map]
  have hp : ∀ r ∈ rows, (Relationship.shown pruned ∘ applyRow opId now c as) r =
      (r.shown pruned && !r.collapses c as) := fun r _ => shown_applyRow r
  rw [List.filter_congr hp]
  apply List.map_congr_left
  intro r hr
  rw [List.mem_filter, Bool.and_eq_true, shown_iff, Bool.not_eq_true'] at hr
  exact (applyRow_of_live hr.2.1.1).1 hr.2.2

/-- **The live edges after the op.** -/
theorem liveEdges_apply (hc : ∀ m ∈ op.merges, m.canonicalId = c) :
    liveEdges pruned (applyVectorcypherDedupeEntities band judge now op s).1.relationships =
      (s.relationships.rows.filter fun r =>
        r.shown pruned && !r.collapses c (absorbedIds band judge op.merges)).map fun r =>
        (r.id, canonicalOf c (absorbedIds band judge op.merges) r.sourceEntityId,
          canonicalOf c (absorbedIds band judge op.merges) r.targetEntityId) := by
  unfold liveEdges
  show (((applyMerges band judge op.opId now op.merges s).1.relationships.rows.filter _).map _) = _
  rw [(rows_applyMerges op.merges s hc).1, rows_filter_map_applyRow, List.map_map]
  rfl

/-- **A graph with the live edges of the SQL store has them after the mirror.** -/
theorem sameEdges_mirror (hc : ∀ m ∈ op.merges, m.canonicalId = c) {g : MirrorGraph Id T}
    (hsame : ∀ edge, edge ∈ liveEdges pruned s.relationships ↔ edge ∈ g.liveEdges) (stamp : T)
    (communities : List (CommunityNode Id)) (edge : Id × Id × Id) :
    edge ∈ liveEdges pruned (applyVectorcypherDedupeEntities band judge now op s).1.relationships ↔
      edge ∈ (g.applyMirrorTargets (targetsOf band judge now op s) stamp communities).liveEdges := by
  rw [liveEdges_apply hc, MirrorGraph.liveEdges, MirrorGraph.edges_applyMirrorTargets]
  simp only [List.mem_map, List.mem_filter, Bool.and_eq_true, Bool.not_eq_true', shown_iff,
    Option.isNone_iff_eq_none]
  constructor
  · rintro ⟨r, ⟨hr, ⟨hlive, hpr⟩, hcol⟩, rfl⟩
    have hmem : (r.id, r.sourceEntityId, r.targetEntityId) ∈ g.liveEdges := by
      rw [← hsame]
      exact List.mem_map.mpr ⟨r, List.mem_filter.mpr ⟨hr, shown_iff.mpr ⟨hlive, hpr⟩⟩, rfl⟩
    obtain ⟨⟨i, x, y, v⟩, he, heq⟩ := List.mem_map.mp hmem
    rw [List.mem_filter, Option.isNone_iff_eq_none] at he
    cases heq
    obtain ⟨he, rfl⟩ := he
    have hmirror := (@mirrorEdge_of_row _ _ _ now c band judge op s hc stamp r hr hlive).2 hcol
    exact ⟨_, ⟨⟨_, he, rfl⟩, by rw [hmirror]⟩, by rw [hmirror]⟩
  · rintro ⟨_, ⟨⟨⟨i, x, y, v⟩, he, rfl⟩, hv⟩, rfl⟩
    have hlive : v = none := ((mirrorEdge_spec _ _ _).2.1.mp hv).1
    subst hlive
    have hmem : (i, x, y) ∈ liveEdges pruned s.relationships := by
      rw [hsame]
      exact List.mem_map.mpr ⟨_, List.mem_filter.mpr ⟨he, rfl⟩, rfl⟩
    obtain ⟨r, hr, heq⟩ := List.mem_map.mp hmem
    rw [List.mem_filter, shown_iff] at hr
    cases heq
    obtain ⟨hdead, hmirror⟩ := @mirrorEdge_of_row _ _ _ now c band judge op s hc stamp r hr.1 hr.2.1
    cases hcol : r.collapses c (absorbedIds band judge op.merges) with
    | true => exact absurd hv (hdead hcol)
    | false => exact ⟨r, ⟨hr.1, hr.2, hcol⟩, by rw [hmirror hcol]⟩

end LiveEdges

end Khora
