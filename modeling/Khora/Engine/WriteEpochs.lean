import Khora.Lib.Effects
import Khora.Lib.Runs
import Mathlib.Algebra.GroupWithZero.Nat

/-!
# Writes and the recall cache

The engine invalidates the cached recalls of a namespace with `bump_epoch`, which every write
path calls by hand.  Here the write paths are programs whose mark is the bump: the calls they
await, in order, with the handlers around them.

* `covered_clean` — an operation that ends well, or has committed nothing, has bumped the
  epoch after all it committed; except that the pending processor bumps none and `forget`
  deletes the row after its bump.
* `recalls_current` — in every history of such operations every recall is answered from a
  result that was computed after the last change.
* `staged_stale` — a staged document, and the recall after it.
-/

namespace Khora

open Effects

/-! ## Calls -/

/-- What an awaited call may raise.  `except Exception` catches all but a cancellation. -/
inductive EngineError where
  | integrity
  | graphMirror
  | error
  | cancelled
deriving DecidableEq, Repr

abbrev Write (α : Type) := Program EngineError α

/-- A call that writes nothing: a lookup, an embedding, an extraction, a hook. -/
def reads : Write Unit := await false

/-- A call that may write, all, part or nothing of it, whether or not it raises. -/
def writes : Write Unit := await true

/-- `self._recall_cache.bump_epoch(namespace_id)` -/
def bumpEpoch : Write Unit := mark

/-- `except Exception` -/
def catching {α : Type} (b : Write α) (h : EngineError → Write α) : Write α :=
  handle b fun e => if e = .cancelled then raise e else h e

/-! ## One document -/

/-- The options that the write paths read. -/
structure WriteConfig where
  dualNodes : Bool
  extractEntities : Bool
  keywordPpr : Bool

/-- What the chunks of a window lead to. -/
structure WindowData where
  /-- core chunks are selected in a thread -/
  selects : Bool
  hasCore : Bool
  entities : ℕ
  relationships : ℕ
  links : Bool

/-- What the content of a document leads to. -/
structure DocumentData where
  semaphore : Bool
  windows : List WindowData
  keywords : Bool

section Documents

variable (cfg : WriteConfig)

/-- `_mirror_chunks_or_degrade` -/
def mirrorChunksOrDegrade : Write Unit :=
  when cfg.dualNodes (catching writes fun _ => pure ())

/-- `persist_keyword_chunk_edges` -/
def persistKeywordChunkEdges (edges : Bool) : Write Unit :=
  when edges (catching writes fun _ => pure ())

/-- Store the entities and relationships of a window: `upsert_entities_batch` and its hooks,
`create_relationships_batch` and its hooks, `link_entities_to_chunks_batch`. -/
def storeExtraction (hooks : Bool) (d : WindowData) : Write Unit := do
  writes
  when hooks (each (List.range d.entities) fun _ => reads)
  when (0 < d.relationships) do
    writes
    when hooks (each (List.range d.relationships) fun _ => reads)
  when (d.links && cfg.dualNodes) writes

/-- `_run_skeleton_extraction` -/
def runSkeletonExtraction (d : WindowData) : Write Unit := do
  when d.selects reads
  when d.hasCore do
    reads -- extract_entities
    when (0 < d.entities) do
      reads -- embed_batch
      storeExtraction cfg true d

/-- One window of `_process_document`. -/
def processWindow (semaphore : Bool) (d : WindowData) : Write Unit := do
  when semaphore reads
  ensure
    (do
      reads -- embed_batch
      writes -- create_chunks_batch
      mirrorChunksOrDegrade cfg
      when cfg.extractEntities (runSkeletonExtraction cfg d))
    (when semaphore reads)

/-- `_process_document` -/
def processDocument (d : DocumentData) : Write Unit := do
  reads -- chunker.chunk
  if d.windows.isEmpty then
    writes -- update_document
  else do
    each d.windows (processWindow cfg d.semaphore)
    when cfg.keywordPpr (persistKeywordChunkEdges d.keywords)
    writes -- update_document

/-- What a replaced document leads to. -/
structure ReplaceData where
  hasChunks : Bool
  selects : Bool
  hasCore : Bool
  hasEntities : Bool
  links : Bool
  resets : Bool
  relationshipResets : Bool

/-- The writes to `khora_chunks` and the `:Chunk` nodes, before the coordinator's. -/
def rewriteChunks (r : ReplaceData) : Write Unit := do
  writes -- temporal_store.delete_chunks_by_document
  when cfg.dualNodes writes -- dual_nodes.delete_chunks_by_document
  when r.hasChunks do
    writes -- create_chunks_batch
    mirrorChunksOrDegrade cfg
    when cfg.keywordPpr (persistKeywordChunkEdges true)

/-- Mark the document FAILED, if that goes through, and raise again. -/
def markFailed {α : Type} (e : EngineError) : Write α := do
  catching writes fun _ => pure ()
  raise e

/-- `_remember_via_replace` -/
def rememberViaReplace (r : ReplaceData) : Write Unit := do
  reads -- chunker.chunk
  when r.hasChunks reads -- embed_batch
  when (r.hasChunks && cfg.extractEntities) do
    when r.selects reads
    when r.hasCore do
      reads -- extract_entities
      when r.hasEntities reads -- embed_batch
  catching (rewriteChunks cfg r) markFailed
  -- replace_document_extraction: a graph failure after the commit is caught
  let mirrored ← handle (do writes; pure true) fun e =>
    if e = .graphMirror then pure false else raise e
  if mirrored then do
    when (cfg.dualNodes && r.links) (catching writes markFailed)
    when r.resets writes -- reset_entity_source_chunk_ids_batch
    when r.relationshipResets writes -- reset_relationship_source_chunk_ids_batch
    bumpEpoch
  else
    bumpEpoch

/-- The arguments of a `remember` call, and what its lookups find. -/
structure RememberInput where
  externalId : Bool
  existing : Bool
  duplicate : Bool
  existingAfterRace : Bool
  document : DocumentData
  replacement : ReplaceData

/-- `remember`.  It returns whether the content is new. -/
def remember (i : RememberInput) : Write Bool := do
  when i.externalId reads -- get_document_by_external_id
  if i.externalId && i.existing then do
    rememberViaReplace cfg i.replacement
    pure true
  else do
    reads -- get_document_by_checksum
    if i.duplicate then
      pure false
    else do
      -- create_document: a lost race on the external id goes to the replace path
      let created ← handle (do writes; pure true) fun e =>
        if e = .integrity ∧ i.externalId = true then do
          reads
          if i.existingAfterRace then pure false else raise e
        else raise e
      if created then do
        processDocument cfg i.document
        bumpEpoch
        pure true
      else do
        rememberViaReplace cfg i.replacement
        pure true

end Documents

/-! ## Batches -/

/-- A document of a batch that is no duplicate, with its number of chunks. -/
structure ActiveDocument where
  chunks : ℕ

/-- The arguments of a `remember_batch` call, and what its lookups and its content lead to. -/
structure BatchInput where
  bulk : Bool
  streaming : Bool
  deduplicate : Bool
  hasExternalIds : Bool
  /-- the documents with a stored external id; `none` has an `occurred_at` that does not parse -/
  replaced : List (Option RememberInput)
  active : List ActiveDocument
  maxChunksInFlight : Option ℕ
  hooks : Bool
  /-- what the documents of a window lead to -/
  extraction : List ActiveDocument → WindowData
  /-- the documents of the legacy path; `none` is a duplicate -/
  legacy : List (Option (Option RememberInput))

/-- Documents into windows of at most so many chunks; a document is not split. -/
def packWindows (limit : ℕ) : List ActiveDocument → ℕ → List ActiveDocument → List (List ActiveDocument)
  | window, _, [] => if window.isEmpty then [] else [window]
  | window, size, d :: ds =>
      if !window.isEmpty && decide (limit < size + d.chunks) then
        window :: packWindows limit [d] d.chunks ds
      else packWindows limit (window ++ [d]) (size + d.chunks) ds

def buildWindows (limit : Option ℕ) (ds : List ActiveDocument) : List (List ActiveDocument) :=
  match limit with
  | none => [ds]
  | some limit => packWindows limit [] 0 ds

section Batches

variable (cfg : WriteConfig)

/-- `_create_and_chunk`: `none` is a document that failed. -/
def createAndChunk (d : ActiveDocument) : Write (Option ActiveDocument) :=
  catching
    (do
      writes -- create_document
      reads -- chunker.chunk
      pure (some d))
    fun _ => pure none

/-- Stages 2 to 6 on the documents of one window. -/
def processBatchWindow (b : BatchInput) (ds : List ActiveDocument) : Write Unit := do
  let d := b.extraction ds
  reads -- the prefetched embeddings
  writes -- create_chunks_batch
  mirrorChunksOrDegrade cfg
  when cfg.keywordPpr (each ds fun _ => persistKeywordChunkEdges true)
  when cfg.extractEntities do
    each ds fun _ => when d.selects reads
    when d.hasCore (each ds fun _ => reads) -- extract_entities
    when (0 < d.entities) do
      reads -- embed_batch
      storeExtraction cfg b.hooks d
  each ds fun _ => writes -- update_document

/-- `remember`, where an exception counts the document as failed. -/
def rememberOne (i : Option RememberInput) : Write ℕ :=
  catching
    (match i with
    | none => raise .error
    | some i => do
        let isNew ← remember cfg i
        pure (if isNew then 1 else 0))
    fun _ => pure 0

/-- `_remember_batch_legacy`: the documents are remembered at the same time. -/
def rememberBatchLegacy (b : BatchInput) : Write ℕ := do
  when b.deduplicate reads
  let counts ← gather (b.legacy.map fun i => i.elim (pure 0) (rememberOne cfg))
  pure counts.sum

/-- `_remember_batch_impl`.  It returns how many documents were processed. -/
def rememberBatchImpl (b : BatchInput) : Write ℕ := do
  if b.streaming then do
    when b.hasExternalIds reads
    let replaced ← count b.replaced (rememberOne cfg)
    when b.deduplicate reads
    let states ← gather (b.active.map createAndChunk)
    let created := states.filterMap id
    let empty := created.filter fun d => d.chunks == 0
    let full := created.filter fun d => d.chunks != 0
    each empty fun _ => writes -- update_document
    if full.isEmpty then
      pure (replaced + empty.length)
    else do
      each (buildWindows b.maxChunksInFlight full) (processBatchWindow cfg b)
      pure (replaced + empty.length + full.length)
  else
    rememberBatchLegacy cfg b

/-- `remember_batch`, which returns the number of documents processed. -/
def rememberBatch (b : BatchInput) : Write ℕ := do
  when b.bulk reads -- prepare_for_bulk_load
  ensure
    (do
      let processed ← rememberBatchImpl cfg b
      when (0 < processed) bumpEpoch
      pure processed)
    (when b.bulk reads) -- ensure_hnsw_indexes

end Batches

/-! ## Staged documents and forget -/

/-- What the pending processor reads before it processes a document. -/
structure StagedInput where
  preFailed : Bool
  hasVector : Bool
  document : DocumentData

/-- What `cascade_forget_extraction` finds. -/
structure CascadeData where
  hasStore : Bool
  listsMirror : Bool
  orphanEntities : Bool
  orphanRelationships : Bool
  sweeps : Bool
  survivingEntities : Bool
  survivingRelationships : Bool

structure ForgetInput where
  hasNamespace : Bool
  found : Bool
  cascade : CascadeData

section Others

variable (cfg : WriteConfig)

/-- `clear_document_extraction_state` -/
def clearDocumentExtractionState : Write Unit := do
  catching writes fun _ => pure ()
  when cfg.dualNodes (catching writes fun _ => pure ())

/-- `_process_pending_item_impl` with `process_staged_document`. -/
def processStaged (i : StagedInput) : Write Unit := do
  when i.preFailed do
    when i.hasVector (catching writes fun _ => pure ())
    catching (clearDocumentExtractionState cfg) fun _ => pure ()
  catching (processDocument cfg i.document) fun _ => catching writes fun _ => pure ()

/-- `cascade_forget_extraction` -/
def cascadeForgetExtraction (c : CascadeData) : Write Unit :=
  when c.hasStore do
    reads -- list_entities
    reads -- list_relationships
    when c.listsMirror reads
    when c.orphanEntities do
      writes
      writes
    when c.orphanRelationships do
      writes
      writes
    when c.sweeps writes
    when c.survivingEntities do
      writes
      writes
    when c.survivingRelationships do
      writes
      writes

/-- `forget` up to its bump.  It returns whether the row is to be deleted. -/
def forgetExtraction (i : ForgetInput) : Write Bool :=
  if i.hasNamespace then do
    reads -- get_document
    if i.found then do
      cascadeForgetExtraction i.cascade
      when cfg.dualNodes writes
      writes -- temporal_store.delete_chunks_by_document
      bumpEpoch
      pure true
    else pure false
  else pure false

def forget (i : ForgetInput) : Write Unit := do
  let found ← forgetExtraction cfg i
  when found writes -- delete_document

end Others

/-! ## Operations -/

/-- A write operation of the engine. -/
inductive WriteOp where
  | remember (i : RememberInput)
  | rememberBatch (b : BatchInput)
  | processStaged (i : StagedInput)
  | forget (i : ForgetInput)

/-- The runs of an operation.  A batch returns how many documents it processed. -/
def WriteOp.program (cfg : WriteConfig) : WriteOp → Write ℕ
  | .remember i => do
      let _ ← Khora.remember cfg i
      pure 0
  | .rememberBatch b => Khora.rememberBatch cfg b
  | .processStaged i => do
      Khora.processStaged cfg i
      pure 0
  | .forget i => do
      Khora.forget cfg i
      pure 0

/-- The operation commits nothing, or it ends well: a batch with a document processed, and a
`forget` without deleting the row.  A staged document must commit nothing. -/
def Covered (cfg : WriteConfig) (op : WriteOp) (t : List Event) (r : Except EngineError ℕ) : Prop :=
  Event.commit ∉ t ∨
    match op with
    | .remember _ => ∃ n, r = .ok n
    | .rememberBatch _ => ∃ n, 0 < n ∧ r = .ok n
    | .processStaged _ => False
    | .forget i => forgetExtraction cfg i t (.ok true)

section Covered

variable {cfg : WriteConfig} {t : List Event}

theorem seals_rememberViaReplace (r : ReplaceData) : Seals (rememberViaReplace cfg r) := by
  refine seals_bind fun _ => seals_bind fun _ => seals_bind fun _ => seals_bind fun _ => seals_bind fun _ => ?_
  refine seals_ite ?_ seals_mark
  exact seals_bind fun _ => seals_bind fun _ => seals_bind fun _ => seals_mark

/-- A `remember` that ends well has bumped at its end, or written nothing. -/
theorem remember_ok {i : RememberInput} {isNew : Bool} (h : remember cfg i t (.ok isNew)) :
    t = [] ∨ ∃ t', t = t' ++ [.mark] := by
  have hreplace : Seals (do rememberViaReplace cfg i.replacement; pure true) :=
    seals_bind_idle (seals_rememberViaReplace i.replacement) fun _ => idle_pure true
  obtain ⟨_, t₁, t₂, h₁, h₂, rfl⟩ := bind_ok h
  rw [idle_when idle_read t₁ _ h₁, List.nil_append]
  split at h₂
  · exact .inr (hreplace t₂ _ h₂)
  · obtain ⟨_, t₃, t₄, h₃, h₄, rfl⟩ := bind_ok h₂
    rw [idle_read t₃ _ h₃, List.nil_append]
    split at h₄
    · exact .inl (idle_pure _ t₄ _ h₄)
    · right
      refine seals_bind (fun created => ?_) t₄ _ h₄
      refine seals_ite ?_ hreplace
      exact seals_bind fun _ => seals_bind_idle seals_mark fun _ => idle_pure true

/-- A run under `finally` that ends well is a run of its body. -/
theorem ensure_ok {α : Type} {b : Write α} {g : Write Unit} (hg : Idle g) {a : α}
    (h : ensure b g t (.ok a)) : b t (.ok a) := by
  obtain ⟨a', t₁, t₂, h₁, h₂, rfl⟩ := bind_ok h
  obtain ⟨_, t₃, t₄, h₃, h₄, rfl⟩ := bind_ok h₂
  obtain ⟨rfl, heq⟩ := h₄
  cases heq
  rw [hg t₃ _ h₃, List.append_nil, List.append_nil]
  rcases h₁ with ⟨a', heq, hb⟩ | ⟨e, u, u', -, hraise, rfl⟩
  · cases heq
    exact hb
  · -- the handler raises again
    obtain ⟨_, v, v', -, hraised, rfl⟩ := bind_ok hraise
    cases hraised.2

/-- A batch that ends well with a document processed has bumped at its end. -/
theorem rememberBatch_ok {b : BatchInput} {n : ℕ} (hn : 0 < n) (h : rememberBatch cfg b t (.ok n)) :
    ∃ t', t = t' ++ [.mark] := by
  obtain ⟨_, t₁, t₂, h₁, h₂, rfl⟩ := bind_ok h
  rw [idle_when idle_read t₁ _ h₁, List.nil_append]
  have hbody := ensure_ok (idle_when idle_read) h₂
  obtain ⟨processed, t₃, t₄, -, h₄, rfl⟩ := bind_ok hbody
  obtain ⟨_, t₅, t₆, h₅, h₆, rfl⟩ := bind_ok h₄
  obtain ⟨rfl, heq⟩ := h₆
  cases heq
  unfold when at h₅
  rw [if_pos (decide_eq_true hn)] at h₅
  obtain ⟨rfl, -⟩ := h₅
  exact ⟨t₃, by rw [List.append_nil]⟩

theorem seals_forgetExtraction {i : ForgetInput} (h : forgetExtraction cfg i t (.ok true)) :
    ∃ t', t = t' ++ [.mark] := by
  unfold forgetExtraction at h
  split at h
  · obtain ⟨_, t₁, t₂, -, h₂, rfl⟩ := bind_ok h
    split at h₂
    · obtain ⟨t', rfl⟩ := (seals_bind fun _ => seals_bind fun _ => seals_bind fun _ =>
        seals_bind_idle seals_mark fun _ => idle_pure true) t₂ _ h₂
      exact ⟨t₁ ++ t', (List.append_assoc _ _ _).symm⟩
    · cases h₂.2
  · cases h.2

/-- **What a covered operation committed is followed by a bump.** -/
theorem covered_clean {op : WriteOp} {r : Except EngineError ℕ} (h : op.program cfg t r)
    (hc : Covered cfg op t r) : dirty t = false := by
  have hsealed : (∃ t', t = t' ++ [.mark]) → dirty t = false := by
    rintro ⟨t', rfl⟩
    exact dirty_append_mark t'
  rcases hc with hnone | hc
  · exact dirty_eq_false_of_not_mem hnone
  · cases op with
    | remember i =>
        obtain ⟨n, rfl⟩ := hc
        obtain ⟨isNew, t₁, t₂, h₁, ⟨rfl, -⟩, rfl⟩ := bind_ok h
        rw [List.append_nil] at hsealed ⊢
        rcases remember_ok h₁ with rfl | hmark
        · rfl
        · exact hsealed hmark
    | rememberBatch b =>
        obtain ⟨n, hn, rfl⟩ := hc
        exact hsealed (rememberBatch_ok hn h)
    | processStaged i => exact hc.elim
    | forget i => exact hsealed (seals_forgetExtraction hc)

end Covered

/-! ## Histories

A recall is answered from a result stored under the current epoch, or computed and stored.
Recalls also come while an operation runs.
-/

/-- A result in the cache: its epoch, and how many changes there were when it was computed. -/
structure StoredRecall where
  epoch : ℕ
  computed : ℕ
deriving DecidableEq, Repr

/-- A recall that was answered, with the number of changes at that time. -/
structure AnsweredRecall where
  computed : ℕ
  changes : ℕ
deriving DecidableEq, Repr

/-- One namespace: its changes, its epoch and its cached recalls. -/
structure NamespaceCache where
  changes : ℕ := 0
  epoch : ℕ := 0
  stored : List StoredRecall := []
deriving DecidableEq, Repr

namespace NamespaceCache

/-- Serve the first result of the current epoch, or compute one; `evicted` is a result that
the cache no longer has. -/
def answer (c : NamespaceCache) (evicted : Bool) : ℕ :=
  match c.stored.find? fun s => s.epoch == c.epoch && !evicted with
  | some s => s.computed
  | none => c.changes

/-- The cache after a recall. -/
def «recall» (c : NamespaceCache) (evicted : Bool) : NamespaceCache :=
  { c with stored := ⟨c.epoch, c.answer evicted⟩ :: c.stored }

def event (c : NamespaceCache) : Event → NamespaceCache
  | .commit => { c with changes := c.changes + 1 }
  | .mark => { c with epoch := c.epoch + 1 }

end NamespaceCache

/-- What happens while an operation runs: its own events, and recalls. -/
inductive Activity where
  | event (e : Event)
  | recall (evicted : Bool)
deriving DecidableEq, Repr

def Activity.event? : Activity → Option Event
  | .event e => some e
  | .recall _ => none

/-- The events of the operation itself. -/
def events (as : List Activity) : List Event := as.filterMap Activity.event?

def NamespaceCache.activity (c : NamespaceCache) : Activity → NamespaceCache
  | .event e => c.event e
  | .recall evicted => c.recall evicted

/-- An operation as it went, with the recalls that came while it ran. -/
structure Operation (cfg : WriteConfig) where
  op : WriteOp
  activity : List Activity
  ending : Except EngineError ℕ
  isRun : op.program cfg (events activity) ending

inductive HistoryStep (cfg : WriteConfig) where
  | write (o : Operation cfg)
  | recall (evicted : Bool)

/-- A namespace with what was answered between the operations, and the events of those that
have ended. -/
structure History where
  cache : NamespaceCache := {}
  answered : List AnsweredRecall := []
  ended : List (List Event) := []

namespace History

variable {cfg : WriteConfig}

def step (h : History) : HistoryStep cfg → History
  | .write o => { h with cache := o.activity.foldl .activity h.cache, ended := events o.activity :: h.ended }
  | .recall evicted => { h with
      cache := h.cache.recall evicted
      answered := ⟨h.cache.answer evicted, h.cache.changes⟩ :: h.answered }

/-- Every write is covered. -/
def CoveredStep (_ : History) : HistoryStep cfg → Prop
  | .write o => Covered cfg o.op (events o.activity) o.ending
  | .recall _ => True

end History

/-- The results of the current epoch are those of the last change, unless one was committed
since the last bump. -/
def NamespaceCache.Fresh (c : NamespaceCache) (pending : Bool) : Prop :=
  ∀ s ∈ c.stored, s.epoch ≤ c.epoch ∧ (s.epoch = c.epoch → pending = false → s.computed = c.changes)

section Histories

variable {c : NamespaceCache} {pending : Bool}

theorem NamespaceCache.Fresh.answer_eq (h : c.Fresh false) (evicted : Bool) :
    c.answer evicted = c.changes := by
  unfold NamespaceCache.answer
  split
  next s hfind =>
    have hpred := List.find?_some hfind
    rw [Bool.and_eq_true, beq_iff_eq] at hpred
    exact (h s (List.mem_of_find?_eq_some hfind)).2 hpred.1 rfl
  next => rfl

/-- A recall keeps the cache fresh: what it stores is what it answered. -/
theorem NamespaceCache.Fresh.recall (h : c.Fresh pending) (evicted : Bool) :
    (c.recall evicted).Fresh pending := by
  intro s hs
  rcases List.mem_cons.mp hs with rfl | hs
  · refine ⟨Nat.le_refl _, fun _ hp => ?_⟩
    subst hp
    exact h.answer_eq evicted
  · exact h s hs

theorem NamespaceCache.Fresh.commit (h : c.Fresh pending) : (c.event .commit).Fresh true := by
  intro s hs
  exact ⟨(h s hs).1, fun _ hp => by cases hp⟩

/-- After a bump no result is of the current epoch. -/
theorem NamespaceCache.Fresh.mark (h : c.Fresh pending) : (c.event .mark).Fresh false := by
  intro s hs
  have hle := (h s hs).1
  refine ⟨Nat.le_succ_of_le hle, fun heq => ?_⟩
  exact absurd heq (Nat.ne_of_lt (Nat.lt_succ_of_le hle))

/-- While an operation runs, the cache is fresh up to what it has committed and not bumped. -/
theorem NamespaceCache.Fresh.activity (as : List Activity) (h : c.Fresh false) :
    (as.foldl NamespaceCache.activity c).Fresh (dirty (events as)) := by
  induction as using List.reverseRecOn with
  | nil => exact h
  | append_singleton as a ih =>
      rw [List.foldl_append, events, List.filterMap_append]
      cases a with
      | «recall» evicted =>
          rw [List.filterMap_cons_none rfl, List.filterMap_nil, List.append_nil]
          exact ih.recall evicted
      | event e =>
          have hevent : [Activity.event e].filterMap Activity.event? = [e] := rfl
          rw [hevent]
          cases e with
          | commit =>
              rw [dirty_append_commit]
              exact ih.commit
          | mark =>
              rw [dirty_append_mark]
              exact ih.mark

/-- Between the operations the cache is fresh, every recall was answered with the last change
in it, and every operation bumped after what it committed. -/
structure History.Current (h : History) : Prop where
  fresh : h.cache.Fresh false
  answered : ∀ a ∈ h.answered, a.computed = a.changes
  ended : ∀ t ∈ h.ended, dirty t = false

theorem History.Current.step {cfg : WriteConfig} {h : History} (hc : h.Current) (s : HistoryStep cfg)
    (hs : h.CoveredStep s) : (h.step s).Current := by
  cases s with
  | write o =>
      have hclean : dirty (events o.activity) = false := covered_clean o.isRun hs
      refine ⟨?_, hc.answered, ?_⟩
      · have hfresh := hc.fresh.activity o.activity
        rw [hclean] at hfresh
        exact hfresh
      · exact List.forall_mem_cons.mpr ⟨hclean, hc.ended⟩
  | «recall» evicted =>
      refine ⟨hc.fresh.recall evicted, ?_, hc.ended⟩
      exact List.forall_mem_cons.mpr ⟨hc.fresh.answer_eq evicted, hc.answered⟩

end Histories

/-- **Every recall is answered from a result that was computed after the last change**, and no
operation leaves a change without a bump, in every history of covered operations. -/
theorem recalls_current (cfg : WriteConfig) (steps : List (HistoryStep cfg))
    (h : Runs.Guarded History.step History.CoveredStep {} steps) :
    (∀ t ∈ (Runs.run History.step {} steps).ended, dirty t = false) ∧
      ∀ a ∈ (Runs.run History.step {} steps).answered, a.computed = a.changes := by
  have hstart : History.Current {} :=
    { fresh := List.forall_mem_nil _, answered := List.forall_mem_nil _, ended := List.forall_mem_nil _ }
  have hend := Runs.run_invariant (fun s a hs ha => hs.step a ha) hstart h
  exact ⟨hend.ended, hend.answered⟩

/-- Every option is off, and the document has no chunks. -/
def plainWrites : WriteConfig where
  dualNodes := false
  extractEntities := false
  keywordPpr := false

def emptyDocument : DocumentData where
  semaphore := false
  windows := []
  keywords := false

def plainRemember : RememberInput where
  externalId := false
  existing := false
  duplicate := false
  existingAfterRace := false
  document := emptyDocument
  replacement := ⟨false, false, false, false, false, false, false⟩

/-- `create_document` commits, then the bump; a recall comes in between. -/
def rememberedDocument : Operation plainWrites where
  op := .remember plainRemember
  activity := [.event .commit, .recall false, .event .mark]
  ending := .ok 0
  isRun := by
    refine bind_intro [.commit, .mark] [] true ?_ ⟨rfl, rfl⟩
    refine bind_intro [] [.commit, .mark] () ⟨rfl, rfl⟩ ?_
    refine bind_intro [] [.commit, .mark] () (.inl rfl) ?_
    refine bind_intro [.commit] [.mark] true (.inl ⟨true, rfl, ?_⟩) ?_
    · exact bind_intro [.commit] [] () (.inr ⟨rfl, rfl⟩) ⟨rfl, rfl⟩
    · refine bind_intro [] [.mark] () ?_ ?_
      · exact bind_intro [] [] () (.inl rfl) (.inl rfl)
      · exact bind_intro [.mark] [] () ⟨rfl, rfl⟩ ⟨rfl, rfl⟩

theorem recalls_current_remembered :
    let steps : List (HistoryStep plainWrites) :=
      [.recall false, .write rememberedDocument, .recall false, .recall false]
    Runs.Guarded History.step History.CoveredStep {} steps ∧
      (Runs.run History.step {} steps).answered = [⟨1, 1⟩, ⟨1, 1⟩, ⟨0, 0⟩] ∧
      ∀ a ∈ (Runs.run History.step {} steps).answered, a.computed = a.changes := by
  have hguard : Runs.Guarded History.step History.CoveredStep {}
      [.recall false, .write rememberedDocument, .recall false, .recall false] :=
    ⟨trivial, .inr ⟨0, rfl⟩, trivial, trivial, trivial⟩
  exact ⟨hguard, by decide, (recalls_current plainWrites _ hguard).2⟩

/-- A document of one window, with chunks and nothing to extract. -/
def oneWindow : DocumentData where
  semaphore := false
  windows := [⟨false, false, 0, 0, false⟩]
  keywords := false

/-- The pending processor stores the chunks of a document and then its status. -/
def stagedDocument : Operation plainWrites where
  op := .processStaged ⟨false, false, oneWindow⟩
  activity := [.event .commit, .event .commit]
  ending := .ok 0
  isRun := by
    refine bind_intro [.commit, .commit] [] () ?_ ⟨rfl, rfl⟩
    refine bind_intro [] [.commit, .commit] () ⟨rfl, rfl⟩ ?_
    refine .inl ⟨(), rfl, ?_⟩
    refine bind_intro [] [.commit, .commit] () (.inl rfl) ?_
    refine bind_intro [.commit] [.commit] () ?_ ?_
    · -- the window
      refine bind_intro [.commit] [] () ?_ ⟨rfl, rfl⟩
      refine bind_intro [] [.commit] () ⟨rfl, rfl⟩ ?_
      refine bind_intro [.commit] [] () (.inl ⟨(), rfl, ?_⟩) ?_
      · refine bind_intro [] [.commit] () (.inl rfl) ?_
        refine bind_intro [.commit] [] () (.inr ⟨rfl, rfl⟩) ?_
        exact bind_intro [] [] () ⟨rfl, rfl⟩ ⟨rfl, rfl⟩
      · exact bind_intro [] [] () ⟨rfl, rfl⟩ ⟨rfl, rfl⟩
    · exact bind_intro [] [.commit] () ⟨rfl, rfl⟩ (.inr ⟨rfl, rfl⟩)

/-- **A staged document is committed without a bump**: the recall after it is answered with
the result from before. -/
theorem staged_stale : ∃ steps : List (HistoryStep plainWrites),
    ¬((∀ t ∈ (Runs.run History.step {} steps).ended, dirty t = false) ∧
      ∀ a ∈ (Runs.run History.step {} steps).answered, a.computed = a.changes) := by
  refine ⟨[.recall false, .write stagedDocument, .recall false], ?_⟩
  rintro ⟨-, hall⟩
  have hanswered : (⟨0, 2⟩ : AnsweredRecall) ∈ (Runs.run History.step {}
      [.recall false, .write stagedDocument, .recall false]).answered := by decide
  cases hall _ hanswered

end Khora
