import Khora.Dream.GraphMirror
import Khora.Lib.Runs
import Mathlib.Data.List.Sort

/-!
# Pending graph mirrors

The mirror of an op runs after the op's commit.  A row of `graph_mirror_pending` stands for
a mirror still to be run: it is written with the commit if the op has entities to retire or
edges to invalidate, written again if a verb fails, and cleared when all verbs have run.
The next drain of the namespace replays the rows it finds.  A crash cuts the effects of an
op or of a drain short at any point.

* `keeps_step` — an event keeps every pending row, unless all verbs of the row have run.
* `no_mirror_lost` — a committed op has run its verbs or is pending, as long as no op that
  materializes communities is cut between its commit and the end of its mirror.
* `community_lost` — such an op, cut right after its commit.
-/

namespace Khora

variable {Id T : Type}

/-! ## The run store -/

/-- One element of the `graph_mirror_pending` column. -/
structure GraphMirrorPending (Id : Type) where
  opSeq : ℕ
  opId : Id
  opType : OpKind
  payload : MirrorPayload

/-- The columns of `khora_dream_runs` that the mirror reads or writes. -/
structure DreamRunRow (Id : Type) where
  runId : Id
  namespaceId : Id
  lastCommittedOpSeq : ℤ
  graphMirrorPending : List (GraphMirrorPending Id)

/-- `_merge_pending`: the entry in place of those of its `op_seq`, sorted. -/
def mergePending (existing : List (GraphMirrorPending Id)) (entry : GraphMirrorPending Id) :
    List (GraphMirrorPending Id) :=
  ((existing.filter fun p => p.opSeq ≠ entry.opSeq) ++ [entry]).insertionSort
    fun p q => p.opSeq ≤ q.opSeq

theorem mem_mergePending {existing : List (GraphMirrorPending Id)} {entry p : GraphMirrorPending Id} :
    p ∈ mergePending existing entry ↔ (p ∈ existing ∧ p.opSeq ≠ entry.opSeq) ∨ p = entry := by
  rw [mergePending, (List.perm_insertionSort _ _).mem_iff, List.mem_append, List.mem_filter,
    List.mem_singleton, decide_eq_true_eq]

abbrev RunStore (Id : Type) := Table Id (DreamRunRow Id) DreamRunRow.runId

section Store

variable [DecidableEq Id]

/-- `_read_pending` and `_write_pending` of one run. -/
def rewritePending (f : List (GraphMirrorPending Id) → List (GraphMirrorPending Id))
    (runs : RunStore Id) (runId : Id) : RunStore Id :=
  runs.update (fun r => r.runId = runId)
    (fun r => { r with graphMirrorPending := f r.graphMirrorPending }) fun _ => rfl

/-- `mark_graph_mirror_pending` -/
def markGraphMirrorPending (runs : RunStore Id) (runId : Id) (entry : GraphMirrorPending Id) :
    RunStore Id :=
  rewritePending (fun ps => mergePending ps entry) runs runId

/-- `clear_graph_mirror_pending` -/
def clearGraphMirrorPending (runs : RunStore Id) (runId : Id) (opSeq : ℕ) : RunStore Id :=
  rewritePending (fun ps => ps.filter fun p => p.opSeq ≠ opSeq) runs runId

/-- `get_open_graph_mirror_pending`: over all runs of the namespace. -/
def getOpenGraphMirrorPending (runs : RunStore Id) (namespaceId : Id) :
    List (Id × GraphMirrorPending Id) :=
  (runs.rows.filter fun r => r.namespaceId = namespaceId).flatMap fun r =>
    r.graphMirrorPending.map fun p => (r.runId, p)

/-- `record_run`: a run that is there keeps its row. -/
def recordRun (runs : RunStore Id) (runId namespaceId : Id) : RunStore Id :=
  (runs.insert ⟨runId, namespaceId, -1, []⟩).getD runs

end Store

/-! ## Ops and their effects -/

/-- A verb of the graph with its argument. -/
inductive VerbCall (Id : Type) where
  | rewriteRelationshipEndpoints (rewrites : List (RewriteEntry Id))
  | softInvalidateRelationships (ids : List Id)
  | softRetireEntities (ids : List Id)
  | materializeCommunities (nodes : List (CommunityNode Id))
deriving DecidableEq

/-- The calls of `apply_mirror_targets`, in order; an empty argument makes none. -/
def verbCalls (targets : MirrorTargets Id) (communities : List (CommunityNode Id)) :
    List (VerbCall Id) :=
  (if targets.rewriteRelationships.isEmpty then []
    else [.rewriteRelationshipEndpoints targets.rewriteRelationships]) ++
  (if targets.invalidateRelationshipIds.isEmpty then []
    else [.softInvalidateRelationships targets.invalidateRelationshipIds]) ++
  (if targets.retireEntityIds.isEmpty then [] else [.softRetireEntities targets.retireEntityIds]) ++
  if communities.isEmpty then [] else [.materializeCommunities communities]

/-- An op of a run, with the undo record its handler returned. -/
structure CommittedOp (Id T : Type) where
  runId : Id
  namespaceId : Id
  seq : ℕ
  opId : Id
  opType : OpKind
  before : UndoBefore Id
  appliedAt : Option T

namespace CommittedOp

variable [DecidableEq Id] (c : CommittedOp Id T)

def key : Id × ℕ := (c.runId, c.seq)

def targets : MirrorTargets Id := extractMirrorTargets c.opType c.before

def communities : List (CommunityNode Id) := extractCommunityTargets c.opType c.before

def verbs : List (VerbCall Id) := verbCalls c.targets c.communities

/-- The row that stands for the op. -/
def pendingEntry (text : PayloadText Id T) : GraphMirrorPending Id :=
  ⟨c.seq, c.opId, c.opType, mirrorPayload text c.opType c.before c.appliedAt⟩

/-- `_pre_mark_graph_mirror_pending` writes a row. -/
def preMarks : Bool :=
  c.opType.mirrorable &&
    (!c.targets.retireEntityIds.isEmpty || !c.targets.invalidateRelationshipIds.isEmpty)

end CommittedOp

/-- A durable effect. -/
inductive Effect (Id T : Type) where
  | commit (c : CommittedOp Id T)
  | verb (key : Id × ℕ) (call : VerbCall Id)
  | mark (c : CommittedOp Id T)
  | clear (key : Id × ℕ)

/-- The run store, with what was committed and which calls the graph has run, each for the
op it belongs to. -/
structure MirrorWorld (Id T : Type) where
  runs : RunStore Id
  committed : List (CommittedOp Id T)
  executed : List ((Id × ℕ) × VerbCall Id)

def MirrorWorld.initial : MirrorWorld Id T := ⟨⟨[], List.nodup_nil⟩, [], []⟩

section Events

variable [DecidableEq Id] (text : PayloadText Id T)

/-- The row of the run in the transaction of the op: the checkpoint, and the pending row
if `_pre_mark_graph_mirror_pending` writes one. -/
def DreamRunRow.afterCommit (c : CommittedOp Id T) (r : DreamRunRow Id) : DreamRunRow Id :=
  { r with
    lastCommittedOpSeq := c.seq
    graphMirrorPending := if c.preMarks then mergePending r.graphMirrorPending (c.pendingEntry text)
      else r.graphMirrorPending }

def perform (w : MirrorWorld Id T) : Effect Id T → MirrorWorld Id T
  | .commit c =>
      { w with
        runs := w.runs.update (fun r => r.runId = c.runId) (DreamRunRow.afterCommit text c) fun _ => rfl
        committed := c :: w.committed }
  | .verb key call => { w with executed := (key, call) :: w.executed }
  | .mark c => { w with runs := markGraphMirrorPending w.runs c.runId (c.pendingEntry text) }
  | .clear key => { w with runs := clearGraphMirrorPending w.runs key.1 key.2 }

def performAll (w : MirrorWorld Id T) (effects : List (Effect Id T)) : MirrorWorld Id T :=
  effects.foldl (perform text) w

/-- `_mirror_dream_op`; `some n` if the mirror raises after `n` calls. -/
def mirrorDreamOp (c : CommittedOp Id T) (fails : Option ℕ) : List (Effect Id T) :=
  if c.opType.mirrorable = false ∨ c.verbs = [] then []
  else match fails with
    | none => c.verbs.map (.verb c.key) ++ [.clear c.key]
    | some n => (c.verbs.take n).map (.verb c.key) ++ [.mark c]

/-- `_apply_one_op` and the mirror after it. -/
def applyOneOp (c : CommittedOp Id T) (fails : Option ℕ) : List (Effect Id T) :=
  .commit c :: mirrorDreamOp c fails

/-- The replay of one row. -/
def drainEntry (fails : Id × ℕ → Option ℕ) (row : Id × GraphMirrorPending Id) :
    List (Effect Id T) :=
  let key := (row.1, row.2.opSeq)
  let verbs := verbCalls (targetsFromPayload text row.2.payload) (communitiesFromPayload text row.2.payload)
  match fails key with
  | none => verbs.map (.verb key) ++ [.clear key]
  | some n => (verbs.take n).map (.verb key)

/-- What happens to a namespace, one thing after another under its dream lock; `stop` is
the number of effects that become durable before a crash. -/
inductive DreamEvent (Id T : Type) where
  | recordRun (runId namespaceId : Id)
  | applyOp (c : CommittedOp Id T) (fails : Option ℕ) (stop : ℕ)
  | drain (namespaceId : Id) (fails : Id × ℕ → Option ℕ) (stop : ℕ)

/-- The op is of a run of its namespace, and past the checkpoint. -/
def MirrorWorld.reaches (w : MirrorWorld Id T) (c : CommittedOp Id T) : Bool :=
  w.runs.rows.any fun r => decide (r.runId = c.runId) && decide (r.namespaceId = c.namespaceId) &&
    decide (r.lastCommittedOpSeq < c.seq)

def stepEvent (w : MirrorWorld Id T) : DreamEvent Id T → MirrorWorld Id T
  | .recordRun runId namespaceId => { w with runs := recordRun w.runs runId namespaceId }
  | .applyOp c fails stop =>
      if w.reaches c then performAll text w ((applyOneOp c fails).take stop) else w
  | .drain namespaceId fails stop =>
      -- `_drain_graph_mirror_pending`: the rows are read once, before the first replay
      performAll text w
        (((getOpenGraphMirrorPending w.runs namespaceId).flatMap (drainEntry text fails)).take stop)

end Events

/-! ## What an op owes the graph -/

section Owed

variable [DecidableEq Id]

/-- Redirected edges come with a retired entity. -/
theorem retires_of_rewrites (op : OpKind) (before : UndoBefore Id)
    (h : (extractMirrorTargets op before).rewriteRelationships ≠ []) :
    (extractMirrorTargets op before).retireEntityIds ≠ [] := by
  revert h
  unfold extractMirrorTargets
  split
  · exact fun h => absurd rfl h
  · exact fun h => absurd rfl h
  · rename_i ms
    unfold dedupeTargets
    simp only
    cases ms.filter MergeUndo.applied with
    | nil => exact fun h => absurd rfl h
    | cons m ms => exact fun _ => List.cons_ne_nil _ _
  · exact fun h => absurd rfl h

/-- Only a mirrorable kind has targets. -/
theorem mirrorable_of_verbs {c : CommittedOp Id T} (h : c.verbs ≠ []) : c.opType.mirrorable = true := by
  by_contra hno
  apply h
  unfold CommittedOp.verbs CommittedOp.targets CommittedOp.communities extractMirrorTargets
    extractCommunityTargets
  cases hop : c.opType
  all_goals first
    | (rw [hop] at hno; exact absurd rfl hno)
    | rfl

/-- An op with something to mirror and no community is marked with its commit. -/
theorem preMarks_of_verbs {c : CommittedOp Id T} (h : c.verbs ≠ []) (hcom : c.communities = []) :
    c.preMarks = true := by
  have hkind := mirrorable_of_verbs h
  have hret := retires_of_rewrites c.opType c.before
  unfold CommittedOp.preMarks
  rw [hkind, Bool.true_and]
  by_contra hno
  rw [Bool.or_eq_true, not_or, Bool.not_eq_true', Bool.not_eq_true', Bool.not_eq_false,
    Bool.not_eq_false, List.isEmpty_iff, List.isEmpty_iff] at hno
  have hrw : c.targets.rewriteRelationships = [] := by
    by_contra hrw
    exact hret hrw hno.1
  apply h
  simp [CommittedOp.verbs, verbCalls, hno.1, hno.2, hrw, hcom]

/-- The calls a row stands for are those of its op. -/
theorem verbCalls_pendingEntry (text : PayloadText Id T) (c : CommittedOp Id T) :
    verbCalls (targetsFromPayload text (c.pendingEntry text).payload)
      (communitiesFromPayload text (c.pendingEntry text).payload) = c.verbs := by
  unfold CommittedOp.pendingEntry CommittedOp.verbs CommittedOp.targets CommittedOp.communities
  rw [targetsFromPayload_mirrorPayload, communitiesFromPayload_mirrorPayload]

end Owed

/-! ## The invariant -/

section Invariant

variable [DecidableEq Id] (text : PayloadText Id T)

/-- The graph has run every call of the op. -/
def MirrorWorld.Mirrored (w : MirrorWorld Id T) (c : CommittedOp Id T) : Prop :=
  ∀ call ∈ c.verbs, (c.key, call) ∈ w.executed

/-- The op's row is in the store. -/
def MirrorWorld.Pending (w : MirrorWorld Id T) (c : CommittedOp Id T) : Prop :=
  ∃ r ∈ w.runs.rows, r.runId = c.runId ∧ c.pendingEntry text ∈ r.graphMirrorPending

/-- What every world meets: a committed op is of a run of its namespace and not past its
checkpoint, no two have the same place, and every pending row is that of a committed op. -/
structure MirrorWorld.WF (w : MirrorWorld Id T) : Prop where
  run : ∀ c ∈ w.committed, ∃ r ∈ w.runs.rows, r.runId = c.runId ∧ r.namespaceId = c.namespaceId ∧
    (c.seq : ℤ) ≤ r.lastCommittedOpSeq
  distinct : (w.committed.map CommittedOp.key).Nodup
  rows : ∀ r ∈ w.runs.rows, ∀ p ∈ r.graphMirrorPending, ∃ c ∈ w.committed, c.runId = r.runId ∧
    p = c.pendingEntry text

/-- What an effect keeps: the world is well formed, nothing committed or run is forgotten,
and a row is gone only if the op is mirrored. -/
structure Keeps (w w' : MirrorWorld Id T) : Prop where
  wf : w'.WF text
  committed : w.committed ⊆ w'.committed
  executed : w.executed ⊆ w'.executed
  pending : ∀ c ∈ w.committed, w.Pending text c → w'.Pending text c ∨ w'.Mirrored c

variable {text} {w w' w'' : MirrorWorld Id T} {c : CommittedOp Id T}

theorem Keeps.refl (h : w.WF text) : Keeps text w w :=
  ⟨h, fun _ h => h, fun _ h => h, fun _ _ h => .inl h⟩

theorem MirrorWorld.Mirrored.mono (h : w.Mirrored c) (hex : w.executed ⊆ w'.executed) :
    w'.Mirrored c :=
  fun call hcall => hex (h call hcall)

theorem Keeps.trans (h : Keeps text w w') (h' : Keeps text w' w'') : Keeps text w w'' where
  wf := h'.wf
  committed := fun _ hc => h'.committed (h.committed hc)
  executed := fun _ hc => h'.executed (h.executed hc)
  pending := by
    intro c hc hp
    rcases h.pending c hc hp with hp' | hm
    · exact h'.pending c (h.committed hc) hp'
    · exact .inr (hm.mono h'.executed)

/-- Two committed ops in one place are one. -/
theorem MirrorWorld.WF.eq_of_key (h : w.WF text) {c c' : CommittedOp Id T} (hc : c ∈ w.committed)
    (hc' : c' ∈ w.committed) (hkey : c.key = c'.key) : c = c' :=
  List.inj_on_of_nodup_map h.distinct hc hc' hkey

theorem keeps_verb (h : w.WF text) (key : Id × ℕ) (call : VerbCall Id) :
    Keeps text w (perform text w (.verb key call)) where
  wf := ⟨h.run, h.distinct, h.rows⟩
  committed := fun _ hc => hc
  executed := List.subset_cons_self _ _
  pending := fun _ _ hp => .inl hp

theorem keeps_verbs (calls : List (VerbCall Id)) (key : Id × ℕ) :
    ∀ {w : MirrorWorld Id T}, w.WF text →
    Keeps text w (performAll text w (calls.map (.verb key))) ∧
      ∀ call ∈ calls, (key, call) ∈ (performAll text w (calls.map (.verb key))).executed := by
  induction calls with
  | nil => exact fun h => ⟨.refl h, fun _ h => (by cases h)⟩
  | cons call calls ih =>
      intro w h
      have hfirst := keeps_verb h key call
      obtain ⟨hrest, hall⟩ := ih hfirst.wf
      refine ⟨hfirst.trans hrest, ?_⟩
      intro call' hcall'
      rcases List.mem_cons.mp hcall' with rfl | hcall'
      · exact hrest.executed (List.mem_cons_self ..)
      · exact hall call' hcall'

/-- The rows of the table after a statement on one run. -/
theorem mem_update_run {runs : RunStore Id} {runId : Id} {f : DreamRunRow Id → DreamRunRow Id}
    {hf : ∀ r, (f r).runId = r.runId} {r : DreamRunRow Id} :
    r ∈ (runs.update (fun r => r.runId = runId) f hf).rows ↔
      ∃ r₀ ∈ runs.rows, r = if r₀.runId = runId then f r₀ else r₀ := by
  rw [Table.rows_update, List.mem_map]
  simp only [decide_eq_true_eq]
  constructor
  · rintro ⟨r₀, hr₀, rfl⟩
    exact ⟨r₀, hr₀, rfl⟩
  · rintro ⟨r₀, hr₀, rfl⟩
    exact ⟨r₀, hr₀, rfl⟩

section Rewrite

variable {f : List (GraphMirrorPending Id) → List (GraphMirrorPending Id)} {runs : RunStore Id}
  {runId : Id}

theorem mem_rewritePending {r : DreamRunRow Id} : r ∈ (rewritePending f runs runId).rows ↔
    ∃ r₀ ∈ runs.rows, r = if r₀.runId = runId then
      { r₀ with graphMirrorPending := f r₀.graphMirrorPending } else r₀ := mem_update_run

/-- Each row is there with its run, namespace and checkpoint. -/
theorem exists_rewritePending {r₀ : DreamRunRow Id} (hr₀ : r₀ ∈ runs.rows) :
    ∃ r ∈ (rewritePending f runs runId).rows, r.runId = r₀.runId ∧ r.namespaceId = r₀.namespaceId ∧
      r.lastCommittedOpSeq = r₀.lastCommittedOpSeq ∧
      r.graphMirrorPending = if r₀.runId = runId then f r₀.graphMirrorPending
        else r₀.graphMirrorPending := by
  refine ⟨_, mem_rewritePending.mpr ⟨r₀, hr₀, rfl⟩, ?_⟩
  split
  · exact ⟨rfl, rfl, rfl, rfl⟩
  · exact ⟨rfl, rfl, rfl, rfl⟩

/-- A rewrite that adds only the row of an op keeps the world well formed. -/
theorem wf_rewritePending (h : w.WF text)
    (hf : ∀ ps, ∀ p ∈ f ps, p ∈ ps ∨ ∃ c ∈ w.committed, c.runId = runId ∧ p = c.pendingEntry text) :
    ({ w with runs := rewritePending f w.runs runId } : MirrorWorld Id T).WF text := by
  refine ⟨?_, h.distinct, ?_⟩
  · intro c' hc'
    obtain ⟨r, hr, hid, hns, hseq⟩ := h.run c' hc'
    obtain ⟨r', hr', hid', hns', hseq', -⟩ := @exists_rewritePending _ _ f w.runs runId r hr
    exact ⟨r', hr', hid'.trans hid, hns'.trans hns, hseq.trans hseq'.ge⟩
  · intro r' hr' p hp
    obtain ⟨r, hr, rfl⟩ := mem_rewritePending.mp hr'
    split at hp
    · rename_i hid
      rw [if_pos hid]
      rcases hf _ p hp with hp | ⟨c, hc, hrun, heq⟩
      · exact h.rows r hr p hp
      · exact ⟨c, hc, hrun.trans hid.symm, heq⟩
    · rename_i hid
      rw [if_neg hid]
      exact h.rows r hr p hp

end Rewrite

theorem keeps_mark (h : w.WF text) (hc : c ∈ w.committed) :
    Keeps text w (perform text w (.mark c)) ∧ (perform text w (.mark c)).Pending text c := by
  have hwf : (perform text w (.mark c)).WF text := by
    apply wf_rewritePending h
    intro ps p hp
    rcases mem_mergePending.mp hp with ⟨hp, -⟩ | rfl
    · exact .inl hp
    · exact .inr ⟨c, hc, rfl, rfl⟩
  refine ⟨⟨hwf, fun _ hc => hc, fun _ hc => hc, ?_⟩, ?_⟩
  · rintro c' hc' ⟨r, hr, hid, hp⟩
    obtain ⟨r', hr', hid', -, -, hps⟩ := @exists_rewritePending _ _
      (fun ps => mergePending ps (c.pendingEntry text)) w.runs c.runId r hr
    refine .inl ⟨r', hr', hid'.trans hid, ?_⟩
    rw [hps]
    by_cases hrun : r.runId = c.runId
    · rw [if_pos hrun]
      refine mem_mergePending.mpr ?_
      by_cases hseq : c'.seq = c.seq
      · -- the row that is replaced is that of the same op
        have heq : c' = c := h.eq_of_key hc' hc (Prod.ext (hid.symm.trans hrun) hseq)
        exact .inr (congrArg (fun c => c.pendingEntry text) heq)
      · exact .inl ⟨hp, hseq⟩
    · rw [if_neg hrun]
      exact hp
  · obtain ⟨r, hr, hid, -, -⟩ := h.run c hc
    obtain ⟨r', hr', hid', -, -, hps⟩ := @exists_rewritePending _ _
      (fun ps => mergePending ps (c.pendingEntry text)) w.runs c.runId r hr
    refine ⟨r', hr', hid'.trans hid, ?_⟩
    rw [hps, if_pos hid]
    exact mem_mergePending.mpr (.inr rfl)

theorem keeps_clear (h : w.WF text) (hc : c ∈ w.committed) (hm : w.Mirrored c) :
    Keeps text w (perform text w (.clear c.key)) := by
  have hwf : (perform text w (.clear c.key)).WF text := by
    apply wf_rewritePending h
    intro ps p hp
    exact .inl (List.mem_of_mem_filter hp)
  refine ⟨hwf, fun _ hc => hc, fun _ hc => hc, ?_⟩
  rintro c' hc' ⟨r, hr, hid, hp⟩
  by_cases hkey : c'.key = c.key
  · rw [h.eq_of_key hc' hc hkey]
    exact .inr hm
  · obtain ⟨r', hr', hid', -, -, hps⟩ := @exists_rewritePending _ _
      (fun ps => ps.filter fun p => p.opSeq ≠ c.seq) w.runs c.runId r hr
    refine .inl ⟨r', hr', hid'.trans hid, ?_⟩
    rw [hps]
    by_cases hrun : r.runId = c.runId
    · rw [if_pos hrun]
      refine List.mem_filter.mpr ⟨hp, decide_eq_true ?_⟩
      intro hseq
      exact hkey (Prod.ext (hid.symm.trans hrun) hseq)
    · rw [if_neg hrun]
      exact hp

theorem mem_commit {r : DreamRunRow Id} : r ∈ (perform text w (.commit c)).runs.rows ↔
    ∃ r₀ ∈ w.runs.rows, r = if r₀.runId = c.runId then r₀.afterCommit text c else r₀ :=
  @mem_update_run _ _ w.runs c.runId (DreamRunRow.afterCommit text c) (fun _ => rfl) r

/-- The commit of an op that the checkpoint has not passed. -/
theorem keeps_commit (h : w.WF text) (hreach : w.reaches c = true) :
    Keeps text w (perform text w (.commit c)) ∧ c ∈ (perform text w (.commit c)).committed ∧
      (c.preMarks = true → (perform text w (.commit c)).Pending text c) := by
  obtain ⟨r₀, hr₀, hreach⟩ := List.any_eq_true.mp hreach
  rw [Bool.and_eq_true, Bool.and_eq_true, decide_eq_true_eq, decide_eq_true_eq, decide_eq_true_eq] at hreach
  obtain ⟨⟨hid₀, hns₀⟩, hseq₀⟩ := hreach
  -- an op of the same run has its place at or before the checkpoint, so before this one
  have hearlier : ∀ c' ∈ w.committed, c'.runId = c.runId → c'.seq < c.seq := by
    intro c' hc' hrun
    obtain ⟨r, hr, hid, -, hseq⟩ := h.run c' hc'
    have heq := List.inj_on_of_nodup_map w.runs.nodup hr hr₀ (hid.trans (hrun.trans hid₀.symm))
    rw [heq] at hseq
    exact Int.ofNat_lt.mp (hseq.trans_lt hseq₀)
  have hpend : ∀ r ∈ w.runs.rows, ∀ p ∈ r.graphMirrorPending, r.runId = c.runId →
      p.opSeq ≠ (c.pendingEntry text).opSeq := by
    intro r hr p hp hrun
    obtain ⟨c', hc', hid, rfl⟩ := h.rows r hr p hp
    exact (hearlier c' hc' (hid.trans hrun)).ne
  refine ⟨⟨⟨?_, ?_, ?_⟩, fun _ hc => List.mem_cons_of_mem _ hc, fun _ hc => hc, ?_⟩,
    List.mem_cons_self, ?_⟩
  · intro c' hc'
    rcases List.mem_cons.mp hc' with rfl | hc'
    · refine ⟨_, mem_commit.mpr ⟨r₀, hr₀, rfl⟩, ?_⟩
      rw [if_pos hid₀]
      exact ⟨hid₀, hns₀, le_rfl⟩
    · obtain ⟨r, hr, hid, hns, hseq⟩ := h.run c' hc'
      refine ⟨_, mem_commit.mpr ⟨r, hr, rfl⟩, ?_⟩
      by_cases hrun : r.runId = c.runId
      · rw [if_pos hrun]
        exact ⟨hid, hns, Int.ofNat_le.mpr (hearlier c' hc' (hid.symm.trans hrun)).le⟩
      · rw [if_neg hrun]
        exact ⟨hid, hns, hseq⟩
  · show (c.key :: w.committed.map CommittedOp.key).Nodup
    refine List.nodup_cons.mpr ⟨?_, h.distinct⟩
    intro hmem
    obtain ⟨c', hc', hkey⟩ := List.mem_map.mp hmem
    exact (hearlier c' hc' (congrArg Prod.fst hkey)).ne (congrArg Prod.snd hkey)
  · intro r' hr' p hp
    obtain ⟨r, hr, rfl⟩ := mem_commit.mp hr'
    have hold : ∀ p ∈ r.graphMirrorPending, ∃ c' ∈ c :: w.committed, c'.runId = r.runId ∧
        p = c'.pendingEntry text := by
      intro p hp
      obtain ⟨c', hc', hcr⟩ := h.rows r hr p hp
      exact ⟨c', List.mem_cons_of_mem _ hc', hcr⟩
    by_cases hrun : r.runId = c.runId
    · rw [if_pos hrun] at hp ⊢
      unfold DreamRunRow.afterCommit at hp
      simp only at hp
      split at hp
      · rcases mem_mergePending.mp hp with ⟨hp, -⟩ | rfl
        · exact hold p hp
        · exact ⟨c, List.mem_cons_self, hrun.symm, rfl⟩
      · exact hold p hp
    · rw [if_neg hrun] at hp ⊢
      exact hold p hp
  · rintro c' hc' ⟨r, hr, hid, hp⟩
    refine .inl ⟨_, mem_commit.mpr ⟨r, hr, rfl⟩, ?_⟩
    by_cases hrun : r.runId = c.runId
    · rw [if_pos hrun]
      refine ⟨hid, ?_⟩
      unfold DreamRunRow.afterCommit
      simp only
      split
      · exact mem_mergePending.mpr (.inl ⟨hp, hpend r hr _ hp hrun⟩)
      · exact hp
    · rw [if_neg hrun]
      exact ⟨hid, hp⟩
  · intro hpre
    refine ⟨_, mem_commit.mpr ⟨r₀, hr₀, rfl⟩, ?_⟩
    rw [if_pos hid₀]
    refine ⟨hid₀, ?_⟩
    unfold DreamRunRow.afterCommit
    simp only
    rw [if_pos hpre]
    exact mem_mergePending.mpr (.inr rfl)

/-! ## Events -/

theorem performAll_append (w : MirrorWorld Id T) (es es' : List (Effect Id T)) :
    performAll text w (es ++ es') = performAll text (performAll text w es) es' :=
  List.foldl_append ..

/-- The calls of an op and the clear of its row, cut anywhere. -/
theorem keeps_mirrored (h : w.WF text) (hc : c ∈ w.committed) (n : ℕ) :
    let es := (c.verbs.map (Effect.verb c.key) ++ [Effect.clear c.key]).take n
    Keeps text w (performAll text w es) ∧
      (c.verbs.length ≤ n → (performAll text w es).Mirrored c) := by
  intro es
  by_cases hn : n ≤ c.verbs.length
  · have hes : es = (c.verbs.take n).map (Effect.verb c.key) := by
      simp only [es]
      rw [List.take_append_of_le_length (by rw [List.length_map]; exact hn), List.map_take]
    rw [hes]
    obtain ⟨hkeep, hall⟩ := @keeps_verbs _ _ _ text (c.verbs.take n) c.key w h
    refine ⟨hkeep, fun hle => ?_⟩
    rw [List.take_of_length_le hle] at hall ⊢
    exact hall
  · have hes : es = c.verbs.map (Effect.verb c.key) ++ [Effect.clear c.key] := by
      simp only [es]
      apply List.take_of_length_le
      rw [List.length_append, List.length_map, List.length_singleton]
      omega
    rw [hes, performAll_append]
    obtain ⟨hkeep, hall⟩ := @keeps_verbs _ _ _ text c.verbs c.key w h
    have hclear := keeps_clear hkeep.wf (hkeep.committed hc) hall
    exact ⟨hkeep.trans hclear, fun _ => MirrorWorld.Mirrored.mono hall hclear.executed⟩

/-- The calls up to a failure and the row that is queued for it, cut anywhere. -/
theorem keeps_queued (h : w.WF text) (hc : c ∈ w.committed) (calls : List (VerbCall Id)) (n : ℕ) :
    let es := (calls.map (Effect.verb c.key) ++ [Effect.mark c]).take n
    Keeps text w (performAll text w es) ∧
      (calls.length < n → (performAll text w es).Pending text c) := by
  intro es
  by_cases hn : n ≤ calls.length
  · have hes : es = (calls.take n).map (Effect.verb c.key) := by
      simp only [es]
      rw [List.take_append_of_le_length (by rw [List.length_map]; exact hn), List.map_take]
    rw [hes]
    exact ⟨(keeps_verbs (calls.take n) c.key h).1, fun hlt => absurd hlt (not_lt.mpr hn)⟩
  · have hes : es = calls.map (Effect.verb c.key) ++ [Effect.mark c] := by
      simp only [es]
      apply List.take_of_length_le
      rw [List.length_append, List.length_map, List.length_singleton]
      omega
    rw [hes, performAll_append]
    obtain ⟨hkeep, -⟩ := @keeps_verbs _ _ _ text calls c.key w h
    obtain ⟨hmark, hpend⟩ := keeps_mark hkeep.wf (hkeep.committed hc)
    exact ⟨hkeep.trans hmark, fun _ => hpend⟩

/-- The number of effects of an op after which its mirror has run or is queued. -/
def mirrorWindow (c : CommittedOp Id T) (fails : Option ℕ) : ℕ :=
  match fails with
  | none => 1 + c.verbs.length
  | some n => 1 + (c.verbs.take n).length + 1

theorem committed_performAll {es : List (Effect Id T)} (hes : ∀ e ∈ es, ∀ c', e ≠ .commit c') :
    ∀ w : MirrorWorld Id T, (performAll text w es).committed = w.committed := by
  induction es with
  | nil => exact fun w => rfl
  | cons e es ih =>
      intro w
      show (performAll text (perform text w e) es).committed = _
      rw [ih fun e he => hes e (List.mem_cons_of_mem _ he)]
      cases e with
      | commit c' => exact absurd rfl (hes _ List.mem_cons_self c')
      | verb _ _ => rfl
      | mark _ => rfl
      | clear _ => rfl

/-- The mirror commits nothing. -/
theorem not_commit_mirrorDreamOp (fails : Option ℕ) :
    ∀ e ∈ mirrorDreamOp c fails, ∀ c', e ≠ .commit c' := by
  rintro _ he c' rfl
  unfold mirrorDreamOp at he
  split at he
  · cases he
  · cases fails with
    | none => simp at he
    | some n =>
        rcases List.mem_append.mp he with he | he
        · obtain ⟨call, -, heq⟩ := List.mem_map.mp he
          cases heq
        · simp at he

/-- The mirror of a committed op, cut anywhere. -/
theorem keeps_mirrorDreamOp (h : w.WF text) (hc : c ∈ w.committed) (fails : Option ℕ) (n : ℕ) :
    let w' := performAll text w ((mirrorDreamOp c fails).take n)
    Keeps text w w' ∧
      (mirrorWindow c fails ≤ n + 1 → c.verbs ≠ [] → w'.Pending text c ∨ w'.Mirrored c) := by
  intro w'
  by_cases hskip : c.opType.mirrorable = false ∨ c.verbs = []
  · have hw' : w' = w := by
      simp only [w', mirrorDreamOp]
      rw [if_pos hskip, List.take_nil]
      rfl
    rw [hw']
    refine ⟨.refl h, fun _ hne => ?_⟩
    rcases hskip with hno | hnil
    · rw [mirrorable_of_verbs hne] at hno
      cases hno
    · exact absurd hnil hne
  · simp only [w', mirrorDreamOp]
    rw [if_neg hskip]
    cases fails with
    | none =>
        obtain ⟨hkeep, hdone⟩ := keeps_mirrored h hc n
        refine ⟨hkeep, fun hwin _ => .inr (hdone ?_)⟩
        unfold mirrorWindow at hwin
        simp only at hwin
        omega
    | some k =>
        obtain ⟨hkeep, hdone⟩ := keeps_queued h hc (c.verbs.take k) n
        refine ⟨hkeep, fun hwin _ => .inl (hdone ?_)⟩
        unfold mirrorWindow at hwin
        simp only at hwin
        omega

/-- One op, cut anywhere. -/
theorem keeps_applyOneOp (h : w.WF text) (hreach : w.reaches c = true) (fails : Option ℕ) (stop : ℕ) :
    let w' := performAll text w ((applyOneOp c fails).take stop)
    Keeps text w w' ∧ (∀ c' ∈ w'.committed, c' ∈ w.committed ∨ c' = c ∧ stop ≠ 0) ∧
      (c.preMarks = true ∨ mirrorWindow c fails ≤ stop → stop ≠ 0 → c.verbs ≠ [] →
        w'.Pending text c ∨ w'.Mirrored c) := by
  intro w'
  cases stop with
  | zero => exact ⟨.refl h, fun c' hc' => .inl hc', fun _ h => absurd rfl h⟩
  | succ n =>
      obtain ⟨hcommit, hmem, hpre⟩ := keeps_commit h hreach
      obtain ⟨hmirror, hwindow⟩ := keeps_mirrorDreamOp hcommit.wf hmem fails n
      refine ⟨hcommit.trans hmirror, ?_, ?_⟩
      · intro c' hc'
        have heq : w'.committed = c :: w.committed :=
          committed_performAll (fun e he => not_commit_mirrorDreamOp fails e (List.mem_of_mem_take he)) _
        rw [heq] at hc'
        rcases List.mem_cons.mp hc' with rfl | hc'
        · exact .inr ⟨rfl, Nat.succ_ne_zero n⟩
        · exact .inl hc'
      · rintro (hmark | hwin) _ hne
        · exact hmirror.pending c hmem (hpre hmark)
        · exact hwindow hwin hne

/-- A drain, cut anywhere: each row is that of a committed op. -/
theorem keeps_drain (fails : Id × ℕ → Option ℕ) (rows : List (Id × GraphMirrorPending Id)) :
    ∀ {w : MirrorWorld Id T} (n : ℕ), w.WF text →
    (∀ row ∈ rows, ∃ c ∈ w.committed, row = (c.runId, c.pendingEntry text)) →
    Keeps text w (performAll text w ((rows.flatMap (drainEntry text fails)).take n)) ∧
      (performAll text w ((rows.flatMap (drainEntry text fails)).take n)).committed = w.committed := by
  induction rows with
  | nil =>
      intro w n h _
      rw [List.flatMap_nil, List.take_nil]
      exact ⟨.refl h, rfl⟩
  | cons row rows ih =>
      intro w n h hrows
      obtain ⟨c, hc, rfl⟩ := hrows row List.mem_cons_self
      have hverbs := verbCalls_pendingEntry text c
      have hseg : ∀ n, Keeps text w (performAll text w
            ((drainEntry text fails (c.runId, c.pendingEntry text)).take n)) ∧
          (performAll text w ((drainEntry text fails (c.runId, c.pendingEntry text)).take n)).committed =
            w.committed := by
        intro n
        have hcases : drainEntry text fails (c.runId, c.pendingEntry text) =
            match fails c.key with
            | none => c.verbs.map (Effect.verb c.key) ++ [.clear c.key]
            | some k => (c.verbs.take k).map (Effect.verb c.key) := by
          unfold drainEntry
          simp only [hverbs]
          rfl
        rw [hcases]
        cases fails c.key with
        | none =>
            refine ⟨(keeps_mirrored h hc n).1, committed_performAll ?_ w⟩
            rintro _ he c' rfl
            have he := List.mem_of_mem_take he
            simp at he
        | some k =>
            simp only
            rw [← List.map_take]
            refine ⟨(keeps_verbs _ c.key h).1, committed_performAll ?_ w⟩
            rintro _ he c' rfl
            obtain ⟨call, -, heq⟩ := List.mem_map.mp he
            cases heq
      rw [List.flatMap_cons, List.take_append, performAll_append]
      obtain ⟨hfirst, hfirst'⟩ := hseg n
      obtain ⟨hrest, hrest'⟩ := ih (n - (drainEntry text fails (c.runId, c.pendingEntry text)).length)
        hfirst.wf fun row' hrow' => by
          obtain ⟨c', hc', heq⟩ := hrows row' (List.mem_cons_of_mem _ hrow')
          exact ⟨c', hfirst.committed hc', heq⟩
      exact ⟨hfirst.trans hrest, hrest'.trans hfirst'⟩

theorem mem_getOpen {runs : RunStore Id} {ns runId : Id} {p : GraphMirrorPending Id} :
    (runId, p) ∈ getOpenGraphMirrorPending runs ns ↔
      ∃ r ∈ runs.rows, r.namespaceId = ns ∧ r.runId = runId ∧ p ∈ r.graphMirrorPending := by
  unfold getOpenGraphMirrorPending
  simp only [List.mem_flatMap, List.mem_filter, decide_eq_true_eq, List.mem_map, Prod.mk.injEq]
  constructor
  · rintro ⟨r, ⟨hr, hns⟩, p', hp', hid, rfl⟩
    exact ⟨r, hr, hns, hid, hp'⟩
  · rintro ⟨r, hr, hns, hid, hp⟩
    exact ⟨r, ⟨hr, hns⟩, p, hp, hid, rfl⟩

/-- A pending op is returned by a drain of its namespace. -/
theorem MirrorWorld.Pending.open (h : w.WF text) (hc : c ∈ w.committed) (hp : w.Pending text c) :
    (c.runId, c.pendingEntry text) ∈ getOpenGraphMirrorPending w.runs c.namespaceId := by
  obtain ⟨r, hr, hid, hmem⟩ := hp
  obtain ⟨r', hr', hid', hns, -⟩ := h.run c hc
  have heq := List.inj_on_of_nodup_map w.runs.nodup hr hr' (hid.trans hid'.symm)
  rw [← heq] at hns
  exact mem_getOpen.mpr ⟨r, hr, hns, hid, hmem⟩

/-- A row that a drain of a namespace returns is that of a committed op of it. -/
theorem MirrorWorld.WF.of_open (h : w.WF text) {ns runId : Id} {p : GraphMirrorPending Id}
    (hrow : (runId, p) ∈ getOpenGraphMirrorPending w.runs ns) :
    ∃ c ∈ w.committed, c.runId = runId ∧ c.namespaceId = ns ∧ p = c.pendingEntry text ∧
      w.Pending text c := by
  obtain ⟨r, hr, hns, hid, hp⟩ := mem_getOpen.mp hrow
  obtain ⟨c, hc, hcr, rfl⟩ := h.rows r hr p hp
  obtain ⟨r', hr', hid', hns', -⟩ := h.run c hc
  have heq := List.inj_on_of_nodup_map w.runs.nodup hr hr' (hcr.symm.trans hid'.symm)
  rw [← heq] at hns'
  exact ⟨c, hc, hcr.trans hid, hns'.symm.trans hns, rfl, r, hr, hcr.symm, hp⟩

theorem keeps_recordRun (h : w.WF text) (runId namespaceId : Id) :
    Keeps text w (stepEvent text w (.recordRun runId namespaceId)) := by
  have hrows : ∀ r, r ∈ (recordRun w.runs runId namespaceId).rows →
      r ∈ w.runs.rows ∨ r = ⟨runId, namespaceId, -1, []⟩ := by
    intro r hr
    unfold recordRun Table.insert at hr
    split at hr
    · exact .inl hr
    · exact List.mem_append.mp hr |>.imp id List.mem_singleton.mp
  have hsub : ∀ r ∈ w.runs.rows, r ∈ (recordRun w.runs runId namespaceId).rows := by
    intro r hr
    unfold recordRun Table.insert
    split
    · exact hr
    · exact List.mem_append_left _ hr
  refine ⟨⟨?_, h.distinct, ?_⟩, fun _ hc => hc, fun _ hc => hc, ?_⟩
  · intro c hc
    obtain ⟨r, hr, hrest⟩ := h.run c hc
    exact ⟨r, hsub r hr, hrest⟩
  · intro r hr p hp
    rcases hrows r hr with hr | rfl
    · exact h.rows r hr p hp
    · cases hp
  · rintro c _ ⟨r, hr, hrest⟩
    exact .inl ⟨r, hsub r hr, hrest⟩

/-- The op does not materialize communities, or the event is not cut between the commit of
the op and the end of its mirror. -/
def DreamEvent.Covered : DreamEvent Id T → Prop
  | .applyOp c fails stop => stop = 0 ∨ c.communities = [] ∨ mirrorWindow c fails ≤ stop
  | _ => True

/-- **What an event keeps**, and what it owes for the op it commits. -/
theorem keeps_step (h : w.WF text) (e : DreamEvent Id T) :
    Keeps text w (stepEvent text w e) ∧
      (e.Covered → ∀ c ∈ (stepEvent text w e).committed, c ∈ w.committed ∨ (c.verbs ≠ [] →
        (stepEvent text w e).Pending text c ∨ (stepEvent text w e).Mirrored c)) := by
  cases e with
  | recordRun runId namespaceId =>
      exact ⟨keeps_recordRun h runId namespaceId, fun _ c hc => .inl hc⟩
  | applyOp c fails stop =>
      unfold stepEvent
      simp only
      split
      · rename_i hreach
        obtain ⟨hkeep, hnew, howed⟩ := keeps_applyOneOp h hreach fails stop
        refine ⟨hkeep, fun hcov c' hc' => ?_⟩
        rcases hnew c' hc' with hold | ⟨rfl, hstop⟩
        · exact .inl hold
        · refine .inr fun hne => howed ?_ hstop hne
          rcases hcov with hzero | hcom | hwin
          · exact absurd hzero hstop
          · exact .inl (preMarks_of_verbs hne hcom)
          · exact .inr hwin
      · exact ⟨.refl h, fun _ c hc => .inl hc⟩
  | drain namespaceId fails stop =>
      have hrows : ∀ row ∈ getOpenGraphMirrorPending w.runs namespaceId,
          ∃ c ∈ w.committed, row = (c.runId, c.pendingEntry text) := by
        rintro ⟨runId, p⟩ hrow
        obtain ⟨c, hc, hid, -, hp, -⟩ := h.of_open hrow
        exact ⟨c, hc, by rw [hid, hp]⟩
      obtain ⟨hkeep, hsame⟩ := keeps_drain fails _ stop h hrows
      refine ⟨hkeep, fun _ c hc => .inl ?_⟩
      rw [← hsame]
      exact hc

theorem wf_initial : (MirrorWorld.initial : MirrorWorld Id T).WF text :=
  ⟨fun _ h => (by cases h), List.nodup_nil, fun _ h => (by cases h)⟩

/-- Every world of a run is well formed; if its events are covered, each committed op that
has something to mirror is mirrored or pending. -/
theorem run_accounted (events : List (DreamEvent Id T)) : ∀ {w : MirrorWorld Id T}, w.WF text →
    (Runs.run (stepEvent text) w events).WF text ∧
    ((∀ c ∈ w.committed, c.verbs ≠ [] → w.Pending text c ∨ w.Mirrored c) →
      (∀ e ∈ events, e.Covered) → ∀ c ∈ (Runs.run (stepEvent text) w events).committed, c.verbs ≠ [] →
      (Runs.run (stepEvent text) w events).Pending text c ∨
        (Runs.run (stepEvent text) w events).Mirrored c) := by
  induction events with
  | nil => exact fun h => ⟨h, fun hacc _ => hacc⟩
  | cons e events ih =>
      intro w h
      obtain ⟨hkeep, howed⟩ := keeps_step h e
      obtain ⟨hwf, hrun⟩ := ih hkeep.wf
      refine ⟨hwf, fun hacc hcov => hrun ?_ fun e' he' => hcov e' (List.mem_cons_of_mem _ he')⟩
      intro c hc hne
      rcases howed (hcov e List.mem_cons_self) c hc with hold | hnew
      · rcases hacc c hold hne with hp | hm
        · exact hkeep.pending c hold hp
        · exact .inr (hm.mono hkeep.executed)
      · exact hnew hne

/-- **No committed op loses its mirror, unless its communities are cut off.**  In every run
of recorded runs, ops and drains with crashes: a row that is gone after an event had all
verbs of its payload run; and if no op that materializes communities is cut between its
commit and the end of its mirror, each committed op with something to mirror has had all
its verbs run, or a row with exactly its targets is returned by the next drain of its
namespace. -/
theorem no_mirror_lost (text : PayloadText Id T) (events : List (DreamEvent Id T)) :
    let w := Runs.run (stepEvent text) .initial events
    (∀ (e : DreamEvent Id T) (ns runId : Id) (p : GraphMirrorPending Id),
      (runId, p) ∈ getOpenGraphMirrorPending w.runs ns →
      (runId, p) ∈ getOpenGraphMirrorPending (stepEvent text w e).runs ns ∨
        ∀ call ∈ verbCalls (targetsFromPayload text p.payload) (communitiesFromPayload text p.payload),
          ((runId, p.opSeq), call) ∈ (stepEvent text w e).executed) ∧
    ((∀ e ∈ events, e.Covered) → ∀ c ∈ w.committed, c.verbs ≠ [] →
      w.Mirrored c ∨ ∃ p, (c.runId, p) ∈ getOpenGraphMirrorPending w.runs c.namespaceId ∧
        p.opSeq = c.seq ∧ targetsFromPayload text p.payload = c.targets ∧
        communitiesFromPayload text p.payload = c.communities) := by
  intro w
  obtain ⟨hwf, hacc⟩ := @run_accounted _ _ _ text events .initial wf_initial
  refine ⟨?_, ?_⟩
  · intro e ns runId p hrow
    obtain ⟨c, hc, rfl, rfl, rfl, hpend⟩ := hwf.of_open hrow
    obtain ⟨hkeep, -⟩ := keeps_step hwf e
    rcases hkeep.pending c hc hpend with hp | hm
    · exact .inl (hp.open hkeep.wf (hkeep.committed hc))
    · refine .inr fun call hcall => hm call ?_
      rw [verbCalls_pendingEntry] at hcall
      exact hcall
  · intro hcov c hc hne
    rcases hacc (fun _ h => (by cases h)) hcov c hc hne with hp | hm
    · exact .inr ⟨_, hp.open hwf hc, rfl, targetsFromPayload_mirrorPayload text _ _ _,
        communitiesFromPayload_mirrorPayload text _ _ _⟩
    · exact .inl hm

end Invariant

/-! ## Runs -/

/-- The first op of the run: an edge is pruned. -/
def prunedOp : CommittedOp String String :=
  ⟨"run", "namespace", 0, "op-0", .vectorcypherPruneEdges, .relationships ["edge"], none⟩

theorem no_mirror_lost_prunedOp :
    ∃ p, ("run", p) ∈ getOpenGraphMirrorPending (Runs.run (stepEvent selfText) .initial
        [.recordRun "run" "namespace", .applyOp prunedOp none 1]).runs "namespace" ∧
      p.opSeq = 0 ∧ targetsFromPayload selfText p.payload = ⟨[], ["edge"], []⟩ := by
  have h := (no_mirror_lost selfText [.recordRun "run" "namespace", .applyOp prunedOp none 1]).2
    (fun e he => by
      rcases List.mem_cons.mp he with rfl | he
      · trivial
      · obtain rfl := List.mem_singleton.mp he
        exact .inr (.inl rfl))
    prunedOp (List.mem_cons_self ..) (by decide)
  rcases h with hm | ⟨p, hp, hseq, htargets, -⟩
  · exact absurd (hm (.softInvalidateRelationships ["edge"]) (by decide)) (by decide)
  · exact ⟨p, hp, hseq, htargets⟩

/-- The second: a community is summarized. -/
def communityOp : CommittedOp String String :=
  ⟨"run", "namespace", 1, "op-1", .vectorcypherCommunitySummary,
    .community "community" (some "summary") ["a", "b"] (some 1), none⟩

/-- A crash right after the commit of `communityOp`. -/
def cutCommunity : MirrorWorld String String :=
  Runs.run (stepEvent selfText) .initial
    [.recordRun "run" "namespace", .applyOp communityOp none 1]

/-- **A community is lost**: the op is committed, no verb has run, and no drain returns
anything. -/
theorem community_lost :
    communityOp ∈ cutCommunity.committed ∧ communityOp.verbs ≠ [] ∧
      ¬ cutCommunity.Mirrored communityOp ∧
      getOpenGraphMirrorPending cutCommunity.runs "namespace" = [] := by
  refine ⟨List.mem_cons_self .., by decide, ?_, rfl⟩
  intro h
  have hcall := h (.materializeCommunities [⟨"community", "summary", ["a", "b"], 1⟩]) (by decide)
  cases hcall

end Khora
