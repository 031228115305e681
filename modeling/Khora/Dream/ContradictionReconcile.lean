import Khora.Dream.GraphConverge
import Khora.Filter.Model
import Khora.Lib.Grouping

/-!
# Reconciling contradictions

Relationships between the same two entities that contradict each other are judged pair by
pair, each by two judges.  What both agree to invalidate is closed, one statement after
another, and every pair leaves a triage row.

* `combineVerdicts_invalidate_iff` — when two verdicts invalidate a relationship.
* `applied_eq`, `winner_iff` — the apply handler closes the losers, and its triage rows hold the
  last outcome of every pair.
* `planned_spec` — the findings of the planner are over live relationships of one bucket, and
  name every pair once.
* `Reconciled` — no winner on record is closed, every bucket keeps a live relationship, and the
  undo record lists what was closed.
* `winners_stay_iff` — that is so if and only if no verdict is against a winner.
* `circle_retired` — three pairs whose verdicts close all three relationships.
-/

namespace Khora

variable {Id T Score : Type}

/-! ## The judges -/

/-- The answer of one judge. -/
structure ReconcileVerdict (Score : Type) where
  decision : String
  loser : String
  confidence : Score
  evidenceIds : List String
  rationale : String

inductive JudgeDecision where
  | invalidate
  | keep
  | defer
deriving DecidableEq

def JudgeDecision.name : JudgeDecision → String
  | .invalidate => "invalidate"
  | .keep => "keep"
  | .defer => "defer"

/-- The joint outcome of the two judges. -/
structure JudgeOutcome (Score : Type) where
  decision : JudgeDecision
  loser : Option String
  verifierVerdict : Option (ReconcileVerdict Score)
  auditorVerdict : Option (ReconcileVerdict Score)
  rationale : String

/-- A pair that the detector flags. -/
structure Contradiction (Id Score : Type) where
  relationshipAId : Id
  relationshipBId : Id
  sourceEntityId : Id
  targetEntityId : Id
  relationshipType : String
  similarity : Score
  contradictingKeys : List String
  reason : String
  descriptionAHash : String
  descriptionBHash : String

/-- A flagged pair, with what the judges are shown of it. -/
structure ReconcileFinding (Id Score : Type) extends Contradiction Id Score where
  aConfidence : Option Score
  bConfidence : Option Score
  aDescription : String
  bDescription : String
  aSourceChunkIds : List String
  bSourceChunkIds : List String
  aSourceDocumentIds : List String
  bSourceDocumentIds : List String

/-- A finding with the two answers it gets; an answer is missing if the judge timed out, failed
or cannot be parsed. -/
structure JudgedFinding (Id Score : Type) where
  finding : ReconcileFinding Id Score
  verifier : Option (ReconcileVerdict Score)
  auditor : Option (ReconcileVerdict Score)

/-- `_grounded` -/
def grounded (verdict : ReconcileVerdict Score) (allowedIds : List String) : Bool :=
  verdict.evidenceIds.any fun eid => allowedIds.contains eid

section Judge

variable [LinearOrder Score]

/-- `_combine_verdicts` -/
def combineVerdicts (minConfidence : Score) (allowedIds : List String) :
    Option (ReconcileVerdict Score) → Option (ReconcileVerdict Score) →
      JudgeDecision × Option String × String
  | some verifier, some auditor =>
      if verifier.decision = "invalidate" ∧ auditor.decision = "invalidate" then
        if verifier.loser ≠ auditor.loser ∨ verifier.loser ∉ ["a", "b"] then
          (.defer, none, "judges disagree on loser (verifier=" ++ reprString verifier.loser ++
            ", auditor=" ++ reprString auditor.loser ++ ")")
        else if ¬ (minConfidence ≤ verifier.confidence ∧ minConfidence ≤ auditor.confidence) then
          (.defer, none, "both judges said invalidate but confidence below floor")
        else if ¬ (grounded verifier allowedIds = true ∧ grounded auditor allowedIds = true) then
          (.defer, none, "judge verdict not grounded in the candidate pair's source ids")
        else (.invalidate, some verifier.loser, "both judges agreed: invalidate (grounded)")
      else if verifier.decision = "keep" ∧ auditor.decision = "keep" then
        (.keep, none, "both judges agreed: keep")
      else (.defer, none, "judges disagree (verifier=" ++ verifier.decision ++ ", auditor=" ++
        auditor.decision ++ ")")
  | _, _ => (.defer, none, "one or both judges returned no parseable verdict")

/-- `allowed_ids` of `run_contradiction_judge`. -/
def ReconcileFinding.allowedIds (f : ReconcileFinding Id Score) : List String :=
  f.aSourceChunkIds ++ f.aSourceDocumentIds ++ f.bSourceChunkIds ++ f.bSourceDocumentIds

/-- `run_contradiction_judge` -/
def runContradictionJudge (minConfidence : Score) (j : JudgedFinding Id Score) :
    JudgeOutcome Score :=
  let combined := combineVerdicts minConfidence j.finding.allowedIds j.verifier j.auditor
  { decision := combined.1
    loser := combined.2.1
    verifierVerdict := j.verifier
    auditorVerdict := j.auditor
    rationale := combined.2.2 }

/-- `_resolve_loser_winner` -/
def resolveLoserWinner (f : ReconcileFinding Id Score) (outcome : JudgeOutcome Score) :
    Option Id × Option Id :=
  if outcome.decision ≠ .invalidate then (none, none)
  else if outcome.loser = some "a" then (some f.relationshipAId, some f.relationshipBId)
  else if outcome.loser = some "b" then (some f.relationshipBId, some f.relationshipAId)
  else
    -- lower confidence loses; on a tie, or where one is unknown, it is 'b'
    match f.aConfidence, f.bConfidence with
    | some aConf, some bConf =>
        if aConf < bConf then (some f.relationshipAId, some f.relationshipBId)
        else (some f.relationshipBId, some f.relationshipAId)
    | _, _ => (some f.relationshipBId, some f.relationshipAId)

/-- The relationship that the two judges agree to invalidate. -/
def JudgedFinding.loser? (minConfidence : Score) (j : JudgedFinding Id Score) : Option Id :=
  (resolveLoserWinner j.finding (runContradictionJudge minConfidence j)).1

/-- The other relationship of the pair, if they agree to invalidate one. -/
def JudgedFinding.winner? (minConfidence : Score) (j : JudgedFinding Id Score) : Option Id :=
  (resolveLoserWinner j.finding (runContradictionJudge minConfidence j)).2

end Judge

/-- `_rationale_material` -/
def rationaleMaterial (outcome : JudgeOutcome Score) : String :=
  let parts := [(outcome.verifierVerdict.map ReconcileVerdict.rationale).getD "",
    (outcome.auditorVerdict.map ReconcileVerdict.rationale).getD ""]
  let material := "\n".intercalate (parts.filter fun p => p ≠ "")
  if material = "" then outcome.rationale else material

/-! ## The triage table -/

inductive Resolution where
  | detected
  | invalidated
  | deferred
  | kept
deriving DecidableEq

/-- `_resolution_label` -/
def resolutionLabel : JudgeDecision → Resolution
  | .invalidate => .invalidated
  | .keep => .kept
  | .defer => .deferred

/-- A row of `dream_conflicts`. -/
structure DreamConflict (Id T Score : Type) where
  namespaceId : Id
  relationshipAId : Id
  relationshipBId : Id
  sourceEntityId : Id
  targetEntityId : Id
  relationshipType : String
  similarity : Score
  contradictingKeys : List String
  reason : String
  descriptionAHash : String
  descriptionBHash : String
  detectedByOpId : Id
  validFrom : T
  resolution : Resolution
  loserRelationshipId : Option Id
  winnerRelationshipId : Option Id
  judgeRationaleHash : Option String
  resolvedByOpId : Option Id
  resolvedAt : Option T

/-- `UNIQUE (namespace_id, relationship_a_id, relationship_b_id)` -/
def DreamConflict.pair (row : DreamConflict Id T Score) : Id × Id × Id :=
  (row.namespaceId, row.relationshipAId, row.relationshipBId)

abbrev DreamConflicts (Id T Score : Type) :=
  Table (Id × Id × Id) (DreamConflict Id T Score) DreamConflict.pair

/-- The assignments of `ON CONFLICT ... DO UPDATE SET`. -/
def DreamConflict.resolvedAs (row excluded : DreamConflict Id T Score) : DreamConflict Id T Score :=
  { row with
    resolution := excluded.resolution
    loserRelationshipId := excluded.loserRelationshipId
    winnerRelationshipId := excluded.winnerRelationshipId
    judgeRationaleHash := excluded.judgeRationaleHash
    resolvedByOpId := excluded.resolvedByOpId
    resolvedAt := excluded.resolvedAt }

/-! ## The apply handler -/

structure TriageEntry (Id : Type) where
  relationshipAId : Id
  relationshipBId : Id
  resolution : Resolution
deriving DecidableEq

structure ReconcileSkip (Id : Type) where
  opKind : OpKind
  reason : String
  detail : String
  relationshipAId : Id
  relationshipBId : Id

/-- The stores, and the lists that become the `before` of the undo record. -/
structure ReconcileState (Id T Score : Type) where
  sql : SqlState Id T
  conflicts : DreamConflicts Id T Score
  invalidated : List Id
  triage : List (TriageEntry Id)
  skipReasons : List (ReconcileSkip Id)

/-- The op, and the parameters that the handler is given. -/
structure ReconcileRun (Id T Score : Type) where
  opId : Id
  namespaceId : Id
  appliedAt : T
  minConfidence : Score
  textHash : String → String

section Apply

variable [DecidableEq Id] [LinearOrder Score] (run : ReconcileRun Id T Score)

/-- The parameters of `_UPSERT_TRIAGE_SQL`. -/
def triageRow (j : JudgedFinding Id Score) : DreamConflict Id T Score :=
  let f := j.finding
  let outcome := runContradictionJudge run.minConfidence j
  let resolution := resolutionLabel outcome.decision
  { namespaceId := run.namespaceId
    relationshipAId := f.relationshipAId
    relationshipBId := f.relationshipBId
    sourceEntityId := f.sourceEntityId
    targetEntityId := f.targetEntityId
    relationshipType := f.relationshipType
    similarity := f.similarity
    contradictingKeys := f.contradictingKeys
    reason := f.reason
    descriptionAHash := f.descriptionAHash
    descriptionBHash := f.descriptionBHash
    detectedByOpId := run.opId
    validFrom := run.appliedAt
    resolution := resolution
    loserRelationshipId :=
      if resolution = .invalidated then (resolveLoserWinner f outcome).1 else none
    winnerRelationshipId :=
      if resolution = .invalidated then (resolveLoserWinner f outcome).2 else none
    judgeRationaleHash := some (run.textHash (rationaleMaterial outcome))
    resolvedByOpId := some run.opId
    resolvedAt := some run.appliedAt }

def upsertTriage (conflicts : DreamConflicts Id T Score) (row : DreamConflict Id T Score) :
    DreamConflicts Id T Score :=
  conflicts.upsert row (fun old => old.resolvedAs row) fun _ => rfl

/-- The branch of the loop on the decision: the loser is closed, or the reason why nothing is
done is recorded. -/
def carryOut (st : ReconcileState Id T Score) (f : ReconcileFinding Id Score)
    (outcome : JudgeOutcome Score) : ReconcileState Id T Score :=
  match outcome.decision, (resolveLoserWinner f outcome).1 with
  | .invalidate, some loser =>
      { st with
        sql := (st.sql.close loser).1
        invalidated := st.invalidated ++ (st.sql.close loser).2 }
  | _, _ =>
      { st with
        skipReasons := st.skipReasons ++
          [{ opKind := .vectorcypherContradictionReconcile
             reason := "reconcile_" ++ outcome.decision.name
             detail := outcome.rationale
             relationshipAId := f.relationshipAId
             relationshipBId := f.relationshipBId }] }

/-- One turn of the loop of `apply_vectorcypher_contradiction_reconcile`. -/
def reconcileStep (st : ReconcileState Id T Score) (j : JudgedFinding Id Score) :
    ReconcileState Id T Score :=
  let f := j.finding
  let outcome := runContradictionJudge run.minConfidence j
  { carryOut st f outcome with
    conflicts := upsertTriage st.conflicts (triageRow run j)
    triage := st.triage ++
      [⟨f.relationshipAId, f.relationshipBId, resolutionLabel outcome.decision⟩] }

/-- `apply_vectorcypher_contradiction_reconcile` -/
def applyVectorcypherContradictionReconcile (judged : List (JudgedFinding Id Score))
    (sql : SqlState Id T) (conflicts : DreamConflicts Id T Score) : ReconcileState Id T Score :=
  judged.foldl (reconcileStep run) ⟨sql, conflicts, [], [], []⟩

end Apply

/-! ## The planner -/

/-- A relationship as the planner reads it; the values of its properties as text. -/
structure DetectedRelationship (Id T Score : Type) where
  row : Relationship Id T
  validUntil : Option T
  description : String
  properties : OrderedDict String String
  confidence : Score
  sourceChunkIds : List String
  sourceDocumentIds : List String

/-- `_is_live`; rows with a `valid_to` or an `invalidated_at` are not listed. -/
def DetectedRelationship.isLive (rel : DetectedRelationship Id T Score) : Bool :=
  rel.validUntil.isNone

/-- The bucket of a relationship. -/
def Relationship.bucket (r : Relationship Id T) : Id × Id × String :=
  (r.sourceEntityId, r.targetEntityId, r.relationshipType)

/-- The parameters of the detector: `ratio` is that of `SequenceMatcher`. -/
structure DetectConfig (Score : Type) where
  similarityThreshold : Score
  ratio : String → String → Score
  textHash : String → String

/-- `_comparable_text` -/
def comparableText (rel : DetectedRelationship Id T Score) : String :=
  " | ".intercalate (rel.description :: (rel.properties.keys.mergeSort fun k k' => k ≤ k').map fun key =>
    key ++ "=" ++ (rel.properties.get? key).getD "")

/-- `_contradicting_property_keys` -/
def contradictingPropertyKeys (a b : DetectedRelationship Id T Score) : List String :=
  (a.properties.keys.filter fun k =>
    k ∈ b.properties.keys ∧ a.properties.get? k ≠ b.properties.get? k).mergeSort fun k k' => k ≤ k'

section Plan

variable [LinearOrder Id] [LinearOrder Score] [One Score] (cfg : DetectConfig Score)

/-- `_text_similarity` -/
def textSimilarity (a b : DetectedRelationship Id T Score) : Score :=
  if comparableText a = "" ∧ comparableText b = "" then 1
  else cfg.ratio (comparableText a) (comparableText b)

/-- The body of the double loop of `_find_contradictions`; identifiers are ordered as their
text is. -/
def flagPair (a b : DetectedRelationship Id T Score) : Option (Contradiction Id Score) :=
  let similarity := textSimilarity cfg a b
  let contradictingKeys := contradictingPropertyKeys a b
  let lowSim := decide (similarity < cfg.similarityThreshold)
  let hasContra := !contradictingKeys.isEmpty
  if !(lowSim || hasContra) then none
  else
    let relA := if a.row.id < b.row.id then a else b
    let relB := if a.row.id < b.row.id then b else a
    some
      { relationshipAId := relA.row.id
        relationshipBId := relB.row.id
        sourceEntityId := relA.row.sourceEntityId
        targetEntityId := relA.row.targetEntityId
        relationshipType := relA.row.relationshipType
        similarity := similarity
        contradictingKeys := contradictingKeys
        reason := if lowSim && hasContra then "both"
          else if lowSim then "low_similarity" else "property_contradiction"
        descriptionAHash := cfg.textHash relA.description
        descriptionBHash := cfg.textHash relB.description }

/-- `_find_contradictions` -/
def findContradictions : List (DetectedRelationship Id T Score) → List (Contradiction Id Score)
  | [] => []
  | a :: rest => rest.filterMap (flagPair cfg a) ++ findContradictions rest

/-- `_enrich_finding`; `by_id` keeps the last relationship with an id. -/
def enrichFinding (relationships : List (DetectedRelationship Id T Score))
    (finding : Contradiction Id Score) : ReconcileFinding Id Score :=
  let byId (x : Id) := relationships.reverse.find? fun rel => rel.row.id = x
  let relA := byId finding.relationshipAId
  let relB := byId finding.relationshipBId
  { finding with
    aConfidence := relA.map DetectedRelationship.confidence
    bConfidence := relB.map DetectedRelationship.confidence
    aDescription := (relA.map DetectedRelationship.description).getD ""
    bDescription := (relB.map DetectedRelationship.description).getD ""
    aSourceChunkIds := (relA.map DetectedRelationship.sourceChunkIds).getD []
    bSourceChunkIds := (relB.map DetectedRelationship.sourceChunkIds).getD []
    aSourceDocumentIds := (relA.map DetectedRelationship.sourceDocumentIds).getD []
    bSourceDocumentIds := (relB.map DetectedRelationship.sourceDocumentIds).getD [] }

/-- `plan_vectorcypher_contradiction_reconcile`: the outputs of the op. -/
def planVectorcypherContradictionReconcile (relationships : List (DetectedRelationship Id T Score)) :
    List (ReconcileFinding Id Score) :=
  let live := relationships.filter DetectedRelationship.isLive
  let buckets := (Grouping.groupBy (fun rel => rel.row.bucket) live).items.map Prod.snd
  buckets.flatMap fun bucket =>
    if bucket.length < 2 then []
    else (findContradictions cfg bucket).map (enrichFinding relationships)

end Plan

/-! ## What the judges decide -/

section Decide

variable [LinearOrder Score] {minConfidence : Score}

/-- **Two verdicts invalidate a relationship** if both say so of the same one, with enough
confidence, and each cites a source of the pair. -/
theorem combineVerdicts_invalidate_iff {allowedIds : List String}
    {verifier auditor : Option (ReconcileVerdict Score)} :
    (combineVerdicts minConfidence allowedIds verifier auditor).1 = .invalidate ↔
      ∃ v a, verifier = some v ∧ auditor = some a ∧
        (v.decision = "invalidate" ∧ a.decision = "invalidate") ∧
        (v.loser = a.loser ∧ v.loser ∈ ["a", "b"]) ∧
        (minConfidence ≤ v.confidence ∧ minConfidence ≤ a.confidence) ∧
        grounded v allowedIds = true ∧ grounded a allowedIds = true := by
  cases verifier with
  | none => simp [combineVerdicts]
  | some v =>
      cases auditor with
      | none => simp [combineVerdicts]
      | some a =>
          simp only [combineVerdicts]
          constructor
          · intro h
            refine ⟨v, a, rfl, rfl, ?_⟩
            split at h
            · rename_i hboth
              split at h
              · cases h
              · rename_i hloser
                split at h
                · cases h
                · rename_i hconf
                  split at h
                  · cases h
                  · rename_i hground
                    rw [not_or, not_not, not_not] at hloser
                    exact ⟨hboth, hloser, not_not.mp hconf, not_not.mp hground⟩
            · split at h
              · cases h
              · cases h
          · rintro ⟨v', a', hv, ha, hboth, ⟨heq, hmem⟩, hconf, hground⟩
            cases hv
            cases ha
            rw [if_pos hboth, if_neg (by simp [heq.symm, hmem]), if_neg (not_not.mpr hconf),
              if_neg (not_not.mpr hground)]

/-- The side that the verdicts name. -/
theorem combineVerdicts_loser {allowedIds : List String}
    {verifier auditor : Option (ReconcileVerdict Score)}
    (h : (combineVerdicts minConfidence allowedIds verifier auditor).1 = .invalidate) :
    (combineVerdicts minConfidence allowedIds verifier auditor).2.1 = some "a" ∨
      (combineVerdicts minConfidence allowedIds verifier auditor).2.1 = some "b" := by
  obtain ⟨v, a, rfl, rfl, hboth, ⟨heq, hmem⟩, hconf, hground⟩ := combineVerdicts_invalidate_iff.mp h
  have hval : combineVerdicts minConfidence allowedIds (some v) (some a) =
      (.invalidate, some v.loser, "both judges agreed: invalidate (grounded)") := by
    simp only [combineVerdicts]
    rw [if_pos hboth, if_neg (by simp [heq.symm, hmem]), if_neg (not_not.mpr hconf),
      if_neg (not_not.mpr hground)]
  rw [hval]
  rcases List.mem_cons.mp hmem with h | h
  · exact .inl (congrArg some h)
  · exact .inr (congrArg some (List.mem_singleton.mp h))

/-- A pair has a loser and a winner if the judges agree to invalidate, and neither else. -/
theorem resolve_cases (j : JudgedFinding Id Score) :
    ((runContradictionJudge minConfidence j).decision ≠ .invalidate ∧
      j.loser? minConfidence = none ∧ j.winner? minConfidence = none) ∨
    ((runContradictionJudge minConfidence j).decision = .invalidate ∧
      ((j.loser? minConfidence = some j.finding.relationshipAId ∧
          j.winner? minConfidence = some j.finding.relationshipBId) ∨
        (j.loser? minConfidence = some j.finding.relationshipBId ∧
          j.winner? minConfidence = some j.finding.relationshipAId))) := by
  unfold JudgedFinding.loser? JudgedFinding.winner? resolveLoserWinner
  by_cases h : (runContradictionJudge minConfidence j).decision = .invalidate
  · refine .inr ⟨h, ?_⟩
    rw [if_neg (not_not.mpr h)]
    rcases combineVerdicts_loser h with hl | hl
    · have hloser : (runContradictionJudge minConfidence j).loser = some "a" := hl
      rw [hloser]
      exact .inl ⟨rfl, rfl⟩
    · have hloser : (runContradictionJudge minConfidence j).loser = some "b" := hl
      rw [hloser]
      exact .inr ⟨rfl, rfl⟩
  · refine .inl ⟨h, ?_⟩
    rw [if_pos h]
    exact ⟨rfl, rfl⟩

end Decide

theorem resolutionLabel_eq_iff {d : JudgeDecision} :
    resolutionLabel d = .invalidated ↔ d = .invalidate := by
  cases d with
  | invalidate => exact ⟨fun _ => rfl, fun _ => rfl⟩
  | keep => exact ⟨fun h => (by cases h), fun h => (by cases h)⟩
  | defer => exact ⟨fun h => (by cases h), fun h => (by cases h)⟩

/-! ## What the handler leaves -/

/-- The relationship is there and is read as live. -/
def SqlState.Live (s : SqlState Id T) (x : Id) : Prop :=
  ∃ r ∈ s.tables.relationships.rows, r.id = x ∧ r.shown s.closed = true

/-- The losers of the findings, in the order of the loop. -/
def losersOf [LinearOrder Score] (minConfidence : Score) (judged : List (JudgedFinding Id Score)) :
    List Id :=
  judged.filterMap (JudgedFinding.loser? minConfidence)

section Applied

variable [DecidableEq Id]

/-- The statements close what has a row and is not closed, each once. -/
theorem mem_closeAll (xs : List Id) : ∀ s : SqlState Id T,
    (s.closeAll xs).2.Nodup ∧ ∀ y, y ∈ (s.closeAll xs).2 ↔
      y ∈ xs ∧ (∃ r ∈ s.tables.relationships.rows, r.id = y) ∧ s.closed y = false := by
  induction xs with
  | nil => exact fun s => ⟨List.nodup_nil, fun y => by simp [SqlState.closeAll]⟩
  | cons x xs ih =>
      intro s
      obtain ⟨ht, hc⟩ := close_spec s x
      obtain ⟨hn, hmem⟩ := ih (s.close x).1
      have hclose : (s.close x).2.Nodup ∧ ∀ y, y ∈ (s.close x).2 ↔
          y = x ∧ (∃ r ∈ s.tables.relationships.rows, r.id = y) ∧ s.closed y = false := by
        unfold SqlState.close
        split
        · rename_i h
          rw [Bool.and_eq_true, List.any_eq_true, Bool.not_eq_true'] at h
          obtain ⟨⟨r, hr, hid⟩, hopen⟩ := h
          refine ⟨List.nodup_singleton x, fun y => ?_⟩
          rw [List.mem_singleton]
          constructor
          · rintro rfl
            exact ⟨rfl, ⟨r, hr, of_decide_eq_true hid⟩, hopen⟩
          · exact fun h => h.1
        · rename_i h
          refine ⟨List.nodup_nil, fun y => ⟨fun hy => (by cases hy), ?_⟩⟩
          rintro ⟨rfl, ⟨r, hr, hid⟩, hopen⟩
          apply absurd _ h
          rw [Bool.and_eq_true, List.any_eq_true, Bool.not_eq_true']
          exact ⟨⟨r, hr, decide_eq_true hid⟩, hopen⟩
      show ((s.close x).2 ++ ((s.close x).1.closeAll xs).2).Nodup ∧
        ∀ y, y ∈ (s.close x).2 ++ ((s.close x).1.closeAll xs).2 ↔ _
      constructor
      · rw [List.nodup_append]
        refine ⟨hclose.1, hn, ?_⟩
        intro y hy z hz heq
        subst heq
        have hopen := ((hmem y).mp hz).2.2
        rw [(hc y).mpr (.inr hy)] at hopen
        cases hopen
      · intro y
        rw [List.mem_append, hclose.2, hmem, ht, List.mem_cons]
        constructor
        · rintro (⟨rfl, h⟩ | ⟨hy, hrow, hopen⟩)
          · exact ⟨.inl rfl, h⟩
          · refine ⟨.inr hy, hrow, ?_⟩
            rw [← Bool.not_eq_true] at hopen ⊢
            exact fun h => hopen ((hc y).mpr (.inl h))
        · rintro ⟨hy, hrow, hopen⟩
          by_cases heq : y = x
          · exact .inl ⟨heq, hrow, hopen⟩
          · refine .inr ⟨hy.resolve_left heq, hrow, ?_⟩
            rw [← Bool.not_eq_true, hc]
            rintro (h | h)
            · rw [hopen] at h
              cases h
            · exact heq ((hclose.2 y).mp h).1

variable [LinearOrder Score] (run : ReconcileRun Id T Score)

/-- One turn of the loop closes the loser, if there is one. -/
theorem carryOut_spec (minConfidence : Score) (st : ReconcileState Id T Score)
    (j : JudgedFinding Id Score) :
    let out := carryOut st j.finding (runContradictionJudge minConfidence j)
    out.sql = (st.sql.closeAll (j.loser? minConfidence).toList).1 ∧
      out.invalidated = st.invalidated ++ (st.sql.closeAll (j.loser? minConfidence).toList).2 := by
  rcases @resolve_cases Id Score _ minConfidence j with ⟨hd, hl, -⟩ | ⟨hd, h⟩
  · rw [hl]
    unfold carryOut
    split
    · rename_i h _
      exact absurd h hd
    · exact ⟨rfl, (List.append_nil _).symm⟩
  · obtain ⟨loser, hl⟩ : ∃ loser, j.loser? minConfidence = some loser := by
      rcases h with h | h
      · exact ⟨_, h.1⟩
      · exact ⟨_, h.1⟩
    have hl' : (resolveLoserWinner j.finding (runContradictionJudge minConfidence j)).1 =
      some loser := hl
    rw [hl]
    unfold carryOut
    rw [hd, hl']
    refine ⟨rfl, ?_⟩
    show _ = st.invalidated ++ ((st.sql.close loser).2 ++ [])
    rw [List.append_nil]

theorem closeAll_append (xs ys : List Id) : ∀ s : SqlState Id T,
    s.closeAll (xs ++ ys) = (((s.closeAll xs).1.closeAll ys).1,
      (s.closeAll xs).2 ++ ((s.closeAll xs).1.closeAll ys).2) := by
  induction xs with
  | nil => exact fun s => rfl
  | cons x xs ih =>
      intro s
      simp only [List.cons_append, SqlState.closeAll, ih, List.append_assoc]

/-- **The handler closes the losers** as the op of the mirror does, and upserts one triage row
for every finding. -/
theorem applied_eq (judged : List (JudgedFinding Id Score)) (sql : SqlState Id T)
    (conflicts : DreamConflicts Id T Score) :
    let out := applyVectorcypherContradictionReconcile run judged sql conflicts
    (out.sql = (sql.closeAll (losersOf run.minConfidence judged)).1 ∧
      out.invalidated = (sql.closeAll (losersOf run.minConfidence judged)).2) ∧
      out.conflicts = judged.foldl (fun c j => upsertTriage c (triageRow run j)) conflicts := by
  have hfold : ∀ st : ReconcileState Id T Score,
      ((judged.foldl (reconcileStep run) st).sql =
          (st.sql.closeAll (losersOf run.minConfidence judged)).1 ∧
        (judged.foldl (reconcileStep run) st).invalidated =
          st.invalidated ++ (st.sql.closeAll (losersOf run.minConfidence judged)).2) ∧
        (judged.foldl (reconcileStep run) st).conflicts =
          judged.foldl (fun c j => upsertTriage c (triageRow run j)) st.conflicts := by
    induction judged with
    | nil => exact fun st => ⟨⟨rfl, (List.append_nil _).symm⟩, rfl⟩
    | cons j judged ih =>
        intro st
        obtain ⟨hsql, hinv⟩ : (reconcileStep run st j).sql =
              (st.sql.closeAll (j.loser? run.minConfidence).toList).1 ∧
            (reconcileStep run st j).invalidated =
              st.invalidated ++ (st.sql.closeAll (j.loser? run.minConfidence).toList).2 :=
          carryOut_spec run.minConfidence st j
        have hconf : (reconcileStep run st j).conflicts =
          upsertTriage st.conflicts (triageRow run j) := rfl
        have hlosers : losersOf run.minConfidence (j :: judged) =
            (j.loser? run.minConfidence).toList ++ losersOf run.minConfidence judged := by
          unfold losersOf
          rw [List.filterMap_cons]
          cases j.loser? run.minConfidence with
          | none => rfl
          | some loser => rfl
        obtain ⟨⟨hsql', hinv'⟩, hconf'⟩ := ih (reconcileStep run st j)
        rw [List.foldl_cons, hlosers, closeAll_append, List.foldl_cons, hsql', hinv', hconf', hsql,
          hinv, hconf, List.append_assoc]
        exact ⟨⟨rfl, rfl⟩, rfl⟩
  exact hfold ⟨sql, conflicts, [], [], []⟩

/-- The pair of a finding, as the key of its triage row. -/
def JudgedFinding.pair (j : JudgedFinding Id Score) : Id × Id :=
  (j.finding.relationshipAId, j.finding.relationshipBId)

/-- The relationship is a winner that the triage table is left with: by the last verdict on a
pair, or by a row of a pair that the op does not judge. -/
def StandingWinner (conflicts : DreamConflicts Id T Score) (judged : List (JudgedFinding Id Score))
    (w : Id) : Prop :=
  (∃ row ∈ conflicts.rows, (row.resolution = .invalidated ∧ row.winnerRelationshipId = some w) ∧
    ∀ j ∈ judged, row.pair ≠ (run.namespaceId, j.pair)) ∨
  ∃ before j after, judged = before ++ j :: after ∧ (∀ j' ∈ after, j.pair ≠ j'.pair) ∧
    j.winner? run.minConfidence = some w

/-- **The winners on record** after the handler. -/
theorem winner_iff (judged : List (JudgedFinding Id Score)) (sql : SqlState Id T)
    (conflicts : DreamConflicts Id T Score) (w : Id) :
    (∃ row ∈ (applyVectorcypherContradictionReconcile run judged sql conflicts).conflicts.rows,
      row.resolution = .invalidated ∧ row.winnerRelationshipId = some w) ↔
      StandingWinner run conflicts judged w := by
  obtain ⟨-, hconf⟩ := applied_eq run judged sql conflicts
  have hrow : ∀ j : JudgedFinding Id Score,
      ((triageRow run j).resolution = .invalidated ∧
        (triageRow run j).winnerRelationshipId = some w) ↔ j.winner? run.minConfidence = some w := by
    intro j
    unfold triageRow
    simp only [resolutionLabel_eq_iff]
    rcases @resolve_cases Id Score _ run.minConfidence j with ⟨hd, -, hw⟩ | ⟨hd, -⟩
    · rw [hw]
      exact ⟨fun h => absurd h.1 hd, fun h => (by cases h)⟩
    · rw [if_pos hd]
      exact ⟨fun h => h.2, fun h => ⟨hd, h⟩⟩
  have hpair : ∀ j j' : JudgedFinding Id Score,
      DreamConflict.pair (triageRow run j) ≠ DreamConflict.pair (triageRow run j') ↔
        j.pair ≠ j'.pair := by
    intro j j'
    show ((run.namespaceId, j.pair) : Id × Id × Id) ≠ (run.namespaceId, j'.pair) ↔ _
    simp
  rw [hconf]
  have hloop := @Table.exists_foldl_upsert _ _ _ DreamConflict.pair _ (triageRow run)
    (fun new old => old.resolvedAs new) (fun _ _ => rfl) conflicts judged
    (fun row => row.resolution = .invalidated ∧ row.winnerRelationshipId = some w)
    (fun _ _ _ => Iff.rfl)
  refine hloop.trans ?_
  simp only [hrow, hpair]
  exact Iff.rfl

end Applied

/-! ## Winners stay -/

section Reconciled

variable [DecidableEq Id]

/-- **No winner is retired**: every winner on record is live, every bucket that had a live
relationship has one, and the undo record lists what was closed, each once. -/
structure Reconciled (sql : SqlState Id T) (out : ReconcileState Id T Score) : Prop where
  winners : ∀ w, (∃ row ∈ out.conflicts.rows,
    row.resolution = .invalidated ∧ row.winnerRelationshipId = some w) → out.sql.Live w
  buckets : ∀ r ∈ sql.tables.relationships.rows, r.shown sql.closed = true →
    ∃ r' ∈ out.sql.tables.relationships.rows, r'.bucket = r.bucket ∧ r'.shown out.sql.closed = true
  distinct : out.invalidated.Nodup
  recorded : ∀ x, x ∈ out.invalidated ↔ sql.closed x = false ∧ out.sql.closed x = true

/-- The findings are over live relationships. -/
def OverLive (sql : SqlState Id T) (judged : List (JudgedFinding Id Score)) : Prop :=
  ∀ j ∈ judged, sql.Live j.finding.relationshipAId ∧ sql.Live j.finding.relationshipBId

/-- The two relationships of a finding are in one bucket. -/
def OneBucket (sql : SqlState Id T) (judged : List (JudgedFinding Id Score)) : Prop :=
  ∀ j ∈ judged, ∀ r ∈ sql.tables.relationships.rows, ∀ r' ∈ sql.tables.relationships.rows,
    r.id = j.finding.relationshipAId → r'.id = j.finding.relationshipBId → r.bucket = r'.bucket

variable [LinearOrder Score] (run : ReconcileRun Id T Score)

/-- No verdict is against a winner that stands, nor against the last live relationship of a
bucket. -/
structure Unbeaten (sql : SqlState Id T) (conflicts : DreamConflicts Id T Score)
    (judged : List (JudgedFinding Id Score)) : Prop where
  winners : ∀ w, StandingWinner run conflicts judged w →
    sql.Live w ∧ w ∉ losersOf run.minConfidence judged
  buckets : ∀ r ∈ sql.tables.relationships.rows, r.shown sql.closed = true →
    ∃ r' ∈ sql.tables.relationships.rows, r'.bucket = r.bucket ∧ r'.shown sql.closed = true ∧
      r'.id ∉ losersOf run.minConfidence judged

variable {run} {sql : SqlState Id T} {conflicts : DreamConflicts Id T Score}
  {judged : List (JudgedFinding Id Score)}

omit [DecidableEq Id] in
theorem mem_losersOf {x : Id} : x ∈ losersOf run.minConfidence judged ↔
    ∃ j ∈ judged, j.loser? run.minConfidence = some x :=
  List.mem_filterMap

/-- What is closed after the handler. -/
theorem closed_applied (h : OverLive sql judged) :
    let out := applyVectorcypherContradictionReconcile run judged sql conflicts
    out.sql.tables = sql.tables ∧ out.invalidated.Nodup ∧
      (∀ x, x ∈ out.invalidated ↔ x ∈ losersOf run.minConfidence judged) ∧
      ∀ x, out.sql.closed x = true ↔ sql.closed x = true ∨ x ∈ losersOf run.minConfidence judged := by
  obtain ⟨⟨hsql, hinv⟩, -⟩ := applied_eq run judged sql conflicts
  obtain ⟨ht, hc⟩ := closeAll_spec (losersOf run.minConfidence judged) sql
  obtain ⟨hn, hmem⟩ := mem_closeAll (losersOf run.minConfidence judged) sql
  have hlosers : ∀ x, x ∈ (sql.closeAll (losersOf run.minConfidence judged)).2 ↔
      x ∈ losersOf run.minConfidence judged := by
    intro x
    rw [hmem]
    refine ⟨fun hx => hx.1, fun hx => ⟨hx, ?_⟩⟩
    have hlive : sql.Live x := by
      obtain ⟨j, hj, hl⟩ := mem_losersOf.mp hx
      obtain ⟨ha, hb⟩ := h j hj
      rcases @resolve_cases Id Score _ run.minConfidence j with ⟨-, hnone, -⟩ | ⟨-, ⟨h', -⟩ | ⟨h', -⟩⟩
      · rw [hnone] at hl
        cases hl
      · rw [h'] at hl
        exact Option.some.inj hl ▸ ha
      · rw [h'] at hl
        exact Option.some.inj hl ▸ hb
    obtain ⟨r, hr, rfl, hshown⟩ := hlive
    exact ⟨⟨r, hr, rfl⟩, (shown_iff.mp hshown).2⟩
  intro out
  refine ⟨?_, ?_, ?_, ?_⟩
  · show out.sql.tables = _
    rw [hsql]
    exact ht
  · rw [hinv]
    exact hn
  · intro x
    rw [hinv]
    exact hlosers x
  · intro x
    rw [hsql, hc, hlosers]

/-- The rows that are live after the handler. -/
theorem shown_applied (h : OverLive sql judged) (r : Relationship Id T) :
    r.shown (applyVectorcypherContradictionReconcile run judged sql conflicts).sql.closed = true ↔
      r.shown sql.closed = true ∧ r.id ∉ losersOf run.minConfidence judged := by
  obtain ⟨-, -, -, hc⟩ := @closed_applied Id T Score _ _ run sql conflicts judged h
  rw [shown_iff, shown_iff, ← Bool.not_eq_true, ← Bool.not_eq_true, hc, not_or, and_assoc]

/-- **No winner is retired if and only if no verdict is against one.** -/
theorem reconciled_iff (h : OverLive sql judged) :
    Reconciled sql (applyVectorcypherContradictionReconcile run judged sql conflicts) ↔
      Unbeaten run sql conflicts judged := by
  obtain ⟨ht, hn, hmem, hc⟩ := @closed_applied Id T Score _ _ run sql conflicts judged h
  have hlive : ∀ w, (applyVectorcypherContradictionReconcile run judged sql conflicts).sql.Live w ↔
      sql.Live w ∧ w ∉ losersOf run.minConfidence judged := by
    intro w
    unfold SqlState.Live
    rw [ht]
    constructor
    · rintro ⟨r, hr, rfl, hshown⟩
      obtain ⟨hs, hl⟩ := (shown_applied h r).mp hshown
      exact ⟨⟨r, hr, rfl, hs⟩, hl⟩
    · rintro ⟨⟨r, hr, rfl, hs⟩, hl⟩
      exact ⟨r, hr, rfl, (shown_applied h r).mpr ⟨hs, hl⟩⟩
  constructor
  · intro hrec
    constructor
    · intro w hw
      exact (hlive w).mp (hrec.winners w ((winner_iff run judged sql conflicts w).mpr hw))
    · intro r hr hshown
      obtain ⟨r', hr', hb, hs⟩ := hrec.buckets r hr hshown
      rw [ht] at hr'
      obtain ⟨hs, hl⟩ := (shown_applied h r').mp hs
      exact ⟨r', hr', hb, hs, hl⟩
  · intro hun
    refine ⟨?_, ?_, hn, ?_⟩
    · intro w hw
      exact (hlive w).mpr (hun.winners w ((winner_iff run judged sql conflicts w).mp hw))
    · intro r hr hshown
      obtain ⟨r', hr', hb, hs, hl⟩ := hun.buckets r hr hshown
      rw [ht]
      exact ⟨r', hr', hb, (shown_applied h r').mpr ⟨hs, hl⟩⟩
    · intro x
      rw [hmem, hc]
      constructor
      · intro hx
        refine ⟨?_, .inr hx⟩
        obtain ⟨-, -, hopen⟩ := (mem_closeAll _ sql).2 x |>.mp (by
          rw [← (applied_eq run judged sql conflicts).1.2]
          exact (hmem x).mpr hx)
        exact hopen
      · rintro ⟨hopen, hclosed | hx⟩
        · rw [hopen] at hclosed
          cases hclosed
        · exact hx

omit [DecidableEq Id] in
/-- Where every pair is judged once, every winner stands. -/
theorem standing_of_mem (hn : (judged.map JudgedFinding.pair).Nodup) {j : JudgedFinding Id Score}
    (hj : j ∈ judged) {w : Id} (hw : j.winner? run.minConfidence = some w) :
    StandingWinner run conflicts judged w := by
  obtain ⟨before, after, rfl⟩ := List.append_of_mem hj
  refine .inr ⟨before, j, after, rfl, ?_, hw⟩
  rw [List.map_append, List.map_cons, List.nodup_append] at hn
  intro j' hj' heq
  apply (List.nodup_cons.mp hn.2.1).1
  rw [heq]
  exact List.mem_map.mpr ⟨j', hj', rfl⟩

/-- **For findings of one bucket each that name every pair once** the buckets follow from the
winners. -/
theorem unbeaten_iff (hb : OneBucket sql judged)
    (hn : (judged.map JudgedFinding.pair).Nodup) :
    Unbeaten run sql conflicts judged ↔ ∀ w, StandingWinner run conflicts judged w →
      sql.Live w ∧ w ∉ losersOf run.minConfidence judged := by
  refine ⟨fun h => h.winners, fun h => ⟨h, ?_⟩⟩
  intro r hr hshown
  by_cases hl : r.id ∈ losersOf run.minConfidence judged
  · obtain ⟨j, hj, hloser⟩ := mem_losersOf.mp hl
    rcases @resolve_cases Id Score _ run.minConfidence j with
      ⟨-, hnone, -⟩ | ⟨-, ⟨hl', hw⟩ | ⟨hl', hw⟩⟩
    · rw [hnone] at hloser
      cases hloser
    · obtain ⟨⟨r', hr', hid, hs⟩, hout⟩ := h _ (standing_of_mem hn hj hw)
      rw [hl'] at hloser
      exact ⟨r', hr', (hb j hj r hr r' hr' (Option.some.inj hloser).symm hid).symm, hs, hid ▸ hout⟩
    · obtain ⟨⟨r', hr', hid, hs⟩, hout⟩ := h _ (standing_of_mem hn hj hw)
      rw [hl'] at hloser
      exact ⟨r', hr', hb j hj r' hr' r hr hid (Option.some.inj hloser).symm, hs, hid ▸ hout⟩
  · exact ⟨r, hr, rfl, hshown, hl⟩

/-- **Winners stay if and only if no verdict is against one**; where a finding is over one bucket
and names its pair alone, that is all that a bucket needs as well. -/
theorem winners_stay_iff (h : OverLive sql judged) :
    (Reconciled sql (applyVectorcypherContradictionReconcile run judged sql conflicts) ↔
      Unbeaten run sql conflicts judged) ∧
    (OneBucket sql judged → (judged.map JudgedFinding.pair).Nodup →
      (Unbeaten run sql conflicts judged ↔ ∀ w, StandingWinner run conflicts judged w →
        sql.Live w ∧ w ∉ losersOf run.minConfidence judged)) :=
  ⟨reconciled_iff h, unbeaten_iff⟩

end Reconciled

/-! ## What the planner finds -/

section Planned

variable [LinearOrder Id] [LinearOrder Score] [One Score] {cfg : DetectConfig Score}

/-- The pair that a finding names. -/
def Contradiction.pair (f : Contradiction Id Score) : Id × Id :=
  (f.relationshipAId, f.relationshipBId)

/-- A finding names its two relationships, the one with the lesser identifier first. -/
theorem flagPair_pair {a b : DetectedRelationship Id T Score} {f : Contradiction Id Score}
    (h : flagPair cfg a b = some f) :
    (f.pair = (a.row.id, b.row.id) ∧ a.row.id < b.row.id) ∨
      (f.pair = (b.row.id, a.row.id) ∧ ¬ a.row.id < b.row.id) := by
  unfold flagPair at h
  simp only at h
  split at h
  · cases h
  · cases h
    by_cases hlt : a.row.id < b.row.id
    · refine .inl ⟨?_, hlt⟩
      simp only [Contradiction.pair, if_pos hlt]
    · refine .inr ⟨?_, hlt⟩
      simp only [Contradiction.pair, if_neg hlt]

theorem mem_findContradictions {bucket : List (DetectedRelationship Id T Score)}
    {f : Contradiction Id Score} (h : f ∈ findContradictions cfg bucket) :
    ∃ a ∈ bucket, ∃ b ∈ bucket, f.pair = (a.row.id, b.row.id) := by
  induction bucket with
  | nil => cases h
  | cons a rest ih =>
      rcases List.mem_append.mp h with h | h
      · obtain ⟨b, hb, hf⟩ := List.mem_filterMap.mp h
        rcases flagPair_pair hf with ⟨hp, -⟩ | ⟨hp, -⟩
        · exact ⟨a, List.mem_cons_self, b, List.mem_cons_of_mem _ hb, hp⟩
        · exact ⟨b, List.mem_cons_of_mem _ hb, a, List.mem_cons_self, hp⟩
      · obtain ⟨a', ha', b', hb', hp⟩ := ih h
        exact ⟨a', List.mem_cons_of_mem _ ha', b', List.mem_cons_of_mem _ hb', hp⟩

/-- A bucket is searched pair by pair, each once. -/
theorem nodup_findContradictions {bucket : List (DetectedRelationship Id T Score)}
    (hn : (bucket.map fun rel => rel.row.id).Nodup) :
    ((findContradictions cfg bucket).map Contradiction.pair).Nodup := by
  induction bucket with
  | nil => exact List.nodup_nil
  | cons a rest ih =>
      rw [List.map_cons, List.nodup_cons] at hn
      obtain ⟨hfresh, hn⟩ := hn
      have hne : ∀ b ∈ rest, a.row.id ≠ b.row.id := by
        intro b hb heq
        exact hfresh (List.mem_map.mpr ⟨b, hb, heq.symm⟩)
      show ((rest.filterMap (flagPair cfg a) ++ findContradictions cfg rest).map _).Nodup
      rw [List.map_append, List.nodup_append]
      refine ⟨?_, ih hn, ?_⟩
      · rw [List.nodup_iff_pairwise_ne, List.pairwise_map, List.pairwise_filterMap]
        rw [List.nodup_iff_pairwise_ne, List.pairwise_map] at hn
        refine hn.imp_of_mem ?_
        intro b b' hb hb' hid f hf f' hf' heq
        rcases flagPair_pair hf with ⟨hp, -⟩ | ⟨hp, -⟩
        · rcases flagPair_pair hf' with ⟨hp', -⟩ | ⟨hp', -⟩
          · rw [hp, hp'] at heq
            exact hid (Prod.mk.inj heq).2
          · rw [hp, hp'] at heq
            exact hne b' hb' (Prod.mk.inj heq).1
        · rcases flagPair_pair hf' with ⟨hp', -⟩ | ⟨hp', -⟩
          · rw [hp, hp'] at heq
            exact hne b' hb' (Prod.mk.inj heq).2
          · rw [hp, hp'] at heq
            exact hid (Prod.mk.inj heq).1
      · -- a finding of the first relationship names it, the others do not
        intro p hp p' hp' heq
        obtain ⟨f, hf, rfl⟩ := List.mem_map.mp hp
        obtain ⟨f', hf', rfl⟩ := List.mem_map.mp hp'
        obtain ⟨b, hb, hflag⟩ := List.mem_filterMap.mp hf
        obtain ⟨c, hc, d, hd, hcd⟩ := mem_findContradictions hf'
        rcases flagPair_pair hflag with ⟨hab, -⟩ | ⟨hab, -⟩
        · rw [hab, hcd] at heq
          exact hne c hc (Prod.mk.inj heq).1
        · rw [hab, hcd] at heq
          exact hne d hd (Prod.mk.inj heq).2

variable {relationships : List (DetectedRelationship Id T Score)}

/-- A finding of the plan is one of a bucket. -/
theorem mem_planned {f : ReconcileFinding Id Score}
    (h : f ∈ planVectorcypherContradictionReconcile cfg relationships) :
    ∃ a ∈ relationships, ∃ b ∈ relationships, a.row.bucket = b.row.bucket ∧
      f.toContradiction.pair = (a.row.id, b.row.id) := by
  unfold planVectorcypherContradictionReconcile at h
  simp only [Grouping.values_groupBy, List.mem_flatMap] at h
  obtain ⟨bucket, hbucket, hf⟩ := h
  split at hf
  · cases hf
  · obtain ⟨base, hbase, rfl⟩ := List.mem_map.mp hf
    obtain ⟨a, ha, b, hb, hp⟩ := mem_findContradictions hbase
    obtain ⟨x, -, rfl⟩ := Grouping.mem_groups.mp hbucket
    rw [List.mem_filter, List.mem_filter, decide_eq_true_eq] at ha hb
    exact ⟨a, ha.1.1, b, hb.1.1, ha.2.trans hb.2.symm, hp⟩

theorem nodup_planned (hn : (relationships.map fun rel => rel.row.id).Nodup) :
    ((planVectorcypherContradictionReconcile cfg relationships).map fun f =>
      f.toContradiction.pair).Nodup := by
  unfold planVectorcypherContradictionReconcile
  simp only [Grouping.values_groupBy]
  rw [List.map_flatMap, List.nodup_flatMap]
  have hbase : ∀ bucket : List (DetectedRelationship Id T Score),
      ((if bucket.length < 2 then [] else
        (findContradictions cfg bucket).map (enrichFinding relationships)).map fun f =>
          f.toContradiction.pair) =
        if bucket.length < 2 then [] else (findContradictions cfg bucket).map Contradiction.pair := by
    intro bucket
    split
    · rfl
    · rw [List.map_map]
      rfl
  have hlive : ((relationships.filter DetectedRelationship.isLive).map fun rel =>
      rel.row.id).Nodup := hn.sublist (List.filter_sublist.map _)
  simp only [hbase]
  constructor
  · intro bucket hbucket
    obtain ⟨x, -, rfl⟩ := Grouping.mem_groups.mp hbucket
    split
    · exact List.nodup_nil
    · exact nodup_findContradictions (hlive.sublist (List.filter_sublist.map _))
  · unfold Grouping.groups
    rw [List.pairwise_map]
    refine (Grouping.nodup_eraseDups _).imp ?_
    intro k k' hk p hp hp'
    simp only at hp hp'
    split at hp
    · cases hp
    · split at hp'
      · cases hp'
      · -- the first relationship of the pair is in both buckets
        obtain ⟨f, hf, rfl⟩ := List.mem_map.mp hp
        obtain ⟨f', hf', heq⟩ := List.mem_map.mp hp'
        obtain ⟨a, ha, b, -, hab⟩ := mem_findContradictions hf
        obtain ⟨a', ha', b', -, hab'⟩ := mem_findContradictions hf'
        rw [List.mem_filter, decide_eq_true_eq] at ha ha'
        have hid : a'.row.id = a.row.id := by
          rw [hab, hab'] at heq
          exact (Prod.mk.inj heq).1
        have hsame := List.inj_on_of_nodup_map hlive ha'.1 ha.1 hid
        rw [hsame, ha.2] at ha'
        exact hk ha'.2

/-- **The findings of the planner** are over live relationships of one bucket and name every
pair once, if it is given live rows. -/
theorem planned_spec {sql : SqlState Id T} {judged : List (JudgedFinding Id Score)}
    (hlisted : ∀ rel ∈ relationships, rel.row ∈ sql.tables.relationships.rows ∧
      rel.row.shown sql.closed = true)
    (hn : (relationships.map fun rel => rel.row.id).Nodup)
    (hplan : judged.map JudgedFinding.finding =
      planVectorcypherContradictionReconcile cfg relationships) :
    OverLive sql judged ∧ OneBucket sql judged ∧ (judged.map JudgedFinding.pair).Nodup := by
  have hmem : ∀ j ∈ judged, ∃ a ∈ relationships, ∃ b ∈ relationships,
      a.row.bucket = b.row.bucket ∧ a.row.id = j.finding.relationshipAId ∧
        b.row.id = j.finding.relationshipBId := by
    intro j hj
    obtain ⟨a, ha, b, hb, hbucket, hp⟩ := @mem_planned Id T Score _ _ _ cfg relationships j.finding
      (by rw [← hplan]; exact List.mem_map.mpr ⟨j, hj, rfl⟩)
    exact ⟨a, ha, b, hb, hbucket, (Prod.mk.inj hp).1.symm, (Prod.mk.inj hp).2.symm⟩
  refine ⟨?_, ?_, ?_⟩
  · intro j hj
    obtain ⟨a, ha, b, hb, -, hida, hidb⟩ := hmem j hj
    exact ⟨⟨a.row, (hlisted a ha).1, hida, (hlisted a ha).2⟩,
      ⟨b.row, (hlisted b hb).1, hidb, (hlisted b hb).2⟩⟩
  · intro j hj r hr r' hr' hidr hidr'
    obtain ⟨a, ha, b, hb, hbucket, hida, hidb⟩ := hmem j hj
    have hra := List.inj_on_of_nodup_map sql.tables.relationships.nodup hr (hlisted a ha).1
      (hidr.trans hida.symm)
    have hrb := List.inj_on_of_nodup_map sql.tables.relationships.nodup hr' (hlisted b hb).1
      (hidr'.trans hidb.symm)
    rw [hra, hrb]
    exact hbucket
  · have hpairs : judged.map JudgedFinding.pair =
        (judged.map JudgedFinding.finding).map fun f => f.toContradiction.pair := by
      rw [List.map_map]
      rfl
    rw [hpairs, hplan]
    exact nodup_planned hn

/-- For the findings of the planner and an empty triage table, no winner is retired exactly if
no relationship wins one pair and loses another. -/
theorem reconciled_planned_iff {run : ReconcileRun Id T Score} {sql : SqlState Id T}
    {conflicts : DreamConflicts Id T Score} {judged : List (JudgedFinding Id Score)}
    (hlisted : ∀ rel ∈ relationships, rel.row ∈ sql.tables.relationships.rows ∧
      rel.row.shown sql.closed = true)
    (hn : (relationships.map fun rel => rel.row.id).Nodup)
    (hplan : judged.map JudgedFinding.finding =
      planVectorcypherContradictionReconcile cfg relationships)
    (hempty : conflicts.rows = []) :
    Reconciled sql (applyVectorcypherContradictionReconcile run judged sql conflicts) ↔
      ∀ j ∈ judged, ∀ j' ∈ judged, ∀ w, j.winner? run.minConfidence = some w →
        j'.loser? run.minConfidence ≠ some w := by
  obtain ⟨hlive, hb, hpairs⟩ := planned_spec hlisted hn hplan
  rw [reconciled_iff hlive, unbeaten_iff hb hpairs]
  constructor
  · intro h j hj j' hj' w hw hl
    exact (h w (standing_of_mem hpairs hj hw)).2 (mem_losersOf.mpr ⟨j', hj', hl⟩)
  · rintro h w (⟨row, hrow, -⟩ | ⟨before, j, after, rfl, -, hw⟩)
    · rw [hempty] at hrow
      cases hrow
    · have hj : j ∈ before ++ j :: after := List.mem_append_right _ List.mem_cons_self
      refine ⟨?_, ?_⟩
      · rcases @resolve_cases Id Score _ run.minConfidence j with
          ⟨-, -, hnone⟩ | ⟨-, ⟨-, h'⟩ | ⟨-, h'⟩⟩
        · rw [hnone] at hw
          cases hw
        · rw [h'] at hw
          exact Option.some.inj hw ▸ (hlive j hj).2
        · rw [h'] at hw
          exact Option.some.inj hw ▸ (hlive j hj).1
      · intro hl
        obtain ⟨j', hj', hl⟩ := mem_losersOf.mp hl
        exact h j hj j' hj' w hw hl

end Planned

/-! ## Three relationships in a circle -/

/-- Three relationships between the same two entities. -/
def circleSql : SqlState ℕ ℕ where
  tables :=
    { relationships :=
        { rows := [⟨1, 10, 11, "WORKS_AT", none, none⟩, ⟨2, 10, 11, "WORKS_AT", none, none⟩,
            ⟨3, 10, 11, "WORKS_AT", none, none⟩]
          nodup := by decide }
      entities := ⟨[⟨10, none⟩, ⟨11, none⟩], by decide⟩ }
  closed := fun _ => false

/-- A finding on two of them, both with the source `c`. -/
def circleFinding (a b : ℕ) : ReconcileFinding ℕ ℕ where
  relationshipAId := a
  relationshipBId := b
  sourceEntityId := 10
  targetEntityId := 11
  relationshipType := "WORKS_AT"
  similarity := 0
  contradictingKeys := []
  reason := "low_similarity"
  descriptionAHash := ""
  descriptionBHash := ""
  aConfidence := some 90
  bConfidence := some 90
  aDescription := ""
  bDescription := ""
  aSourceChunkIds := ["c"]
  bSourceChunkIds := ["c"]
  aSourceDocumentIds := []
  bSourceDocumentIds := []

/-- The pair as two judges see it that agree on the side that loses. -/
def agreed (f : ReconcileFinding ℕ ℕ) (loser : String) : JudgedFinding ℕ ℕ :=
  ⟨f, some ⟨"invalidate", loser, 90, ["c"], ""⟩, some ⟨"invalidate", loser, 90, ["c"], ""⟩⟩

def circleRun : ReconcileRun ℕ ℕ ℕ := ⟨100, 200, 7, 80, fun s => s⟩

/-- 1 loses to 2, 3 loses to 1, and 2 loses to 3. -/
def circle : List (JudgedFinding ℕ ℕ) :=
  [agreed (circleFinding 1 2) "a", agreed (circleFinding 1 3) "b", agreed (circleFinding 2 3) "a"]

def noConflicts : DreamConflicts ℕ ℕ ℕ := ⟨[], List.nodup_nil⟩

/-- The three as the planner reads them. -/
def circleDetected : List (DetectedRelationship ℕ ℕ ℕ) :=
  circleSql.tables.relationships.rows.map fun row => ⟨row, none, "", OrderedDict.empty, 90, ["c"], []⟩

theorem reconciled_planned_iff_circle :
    let judged := (planVectorcypherContradictionReconcile ⟨80, fun _ _ => 0, id⟩ circleDetected).map fun f =>
      agreed f "a"
    Reconciled circleSql (applyVectorcypherContradictionReconcile circleRun judged circleSql noConflicts) ↔
      ∀ j ∈ judged, ∀ j' ∈ judged, ∀ w, j.winner? 80 = some w → j'.loser? 80 ≠ some w := by
  intro judged
  have hplan : judged.map JudgedFinding.finding =
      planVectorcypherContradictionReconcile ⟨80, fun _ _ => 0, id⟩ circleDetected :=
    List.map_map.trans (List.map_id _)
  exact reconciled_planned_iff (by decide) (by decide) hplan rfl

/-- What the handler leaves of the circle. -/
def circleRetired : ReconcileState ℕ ℕ ℕ :=
  applyVectorcypherContradictionReconcile circleRun circle circleSql noConflicts

theorem circle_live {x : ℕ} (h : x ∈ [1, 2, 3]) : circleSql.Live x := by
  have hall : ∀ x ∈ [1, 2, 3], ∃ r ∈ circleSql.tables.relationships.rows,
      r.id = x ∧ r.shown circleSql.closed = true := by
    decide
  exact hall x h

theorem circle_over {judged : List (JudgedFinding ℕ ℕ)}
    (h : ∀ j ∈ judged, j.finding.relationshipAId ∈ [1, 2, 3] ∧
      j.finding.relationshipBId ∈ [1, 2, 3]) : OverLive circleSql judged :=
  fun j hj => ⟨circle_live (h j hj).1, circle_live (h j hj).2⟩

/-- **Verdicts in a circle** close every relationship of the bucket, and with them every winner
on record. -/
theorem circle_retired :
    OverLive circleSql circle ∧ ¬ Reconciled circleSql circleRetired ∧
      (∃ row ∈ circleRetired.conflicts.rows,
        row.resolution = .invalidated ∧ row.winnerRelationshipId = some 2) ∧
      ∀ x, ¬ circleRetired.sql.Live x := by
  have hdead : ∀ r ∈ circleRetired.sql.tables.relationships.rows,
      ¬ r.shown circleRetired.sql.closed = true := by
    decide
  refine ⟨circle_over (by decide), ?_, by decide, ?_⟩
  · intro h
    obtain ⟨r, hr, -, hs⟩ := h.buckets ⟨1, 10, 11, "WORKS_AT", none, none⟩ List.mem_cons_self rfl
    exact hdead r hr hs
  · rintro x ⟨r, hr, -, hs⟩
    exact hdead r hr hs

/-- 1 and 3 lose to 2. -/
def twoLosers : List (JudgedFinding ℕ ℕ) :=
  [agreed (circleFinding 1 2) "a", agreed (circleFinding 2 3) "b"]

theorem reconciled_twoLosers :
    Reconciled circleSql
      (applyVectorcypherContradictionReconcile circleRun twoLosers circleSql noConflicts) := by
  refine (winners_stay_iff (circle_over (by decide))).1.mpr ⟨?_, ?_⟩
  · rintro w (⟨row, hrow, -⟩ | ⟨before, j, after, heq, -, hw⟩)
    · cases hrow
    · have hj : j ∈ twoLosers := by
        rw [heq]
        exact List.mem_append_right _ List.mem_cons_self
      have hwinner : ∀ j ∈ twoLosers, j.winner? circleRun.minConfidence = some 2 := by decide
      rw [hwinner j hj] at hw
      obtain rfl := Option.some.inj hw
      exact ⟨circle_live (by decide), by decide⟩
  · have hall : ∀ r ∈ circleSql.tables.relationships.rows, r.shown circleSql.closed = true →
        ∃ r' ∈ circleSql.tables.relationships.rows, r'.bucket = r.bucket ∧
          r'.shown circleSql.closed = true ∧
          r'.id ∉ losersOf circleRun.minConfidence twoLosers := by
      decide
    exact hall

end Khora
