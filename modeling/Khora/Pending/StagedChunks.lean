import Khora.Lib.Pages
import Khora.Lib.Runs
import Khora.Pending.Submission
import Mathlib.Data.Int.Notation
import Mathlib.Data.PNat.Notation

/-!
# The chunks of staged documents

Any number of instances submit documents, claim orphans and process what they have queued,
over one store.  Processing a document commits its chunks window by window and then marks the
row COMPLETED; it may fail or be cut off after any window.

* `flatten_windows` — the windows of a document are its chunks.
* `completed_exact` — in every run in which a document is taken up only while nobody else
  processes it and without chunks of an earlier attempt, in which no limit is negative and no
  attempt on a COMPLETED document is cut off, a COMPLETED document that nobody processes has
  exactly one copy of its chunks.
* `resubmitted_twice` — a document submitted again while it is PENDING is stored twice.
-/

namespace Khora

/-! ## Windows -/

section Windows

variable {K : Type}

/-- `[raw_chunks[i : i + n] for i in range(0, len(raw_chunks), n)]` -/
def slices (n : ℕ) (chunks : List K) : List (List K) :=
  (List.range ((chunks.length + (n - 1)) / n)).map fun i => (chunks.drop (i * n)).take n

/-- The windows of `_process_document`.  A size of 0 raises, and the range of a negative one is empty. -/
def windows (size : Option ℤ) (chunks : List K) : Option (List (List K)) :=
  if chunks.isEmpty then some []
  else
    match size with
    | none => some [chunks]
    | some (.ofNat 0) => none
    | some (.ofNat n) => some (slices n chunks)
    | some (.negSucc _) => some []

/-- **The windows of a document are its chunks, in order.** -/
theorem flatten_windows {size : Option ℤ} {chunks : List K} {ws : List (List K)}
    (h : windows size chunks = some ws) (hsize : ∀ n ∈ size, 0 ≤ n) : ws.flatten = chunks := by
  unfold windows at h
  split at h
  next hempty =>
    cases h
    exact (List.isEmpty_iff.mp hempty).symm
  next =>
    cases size with
    | none =>
        cases h
        exact List.append_nil _
    | some n =>
        cases n with
        | negSucc n => exact absurd (hsize _ rfl) (by omega)
        | ofNat n =>
            cases n with
            | zero => cases h
            | succ n =>
                cases h
                exact Pages.flatten_slices (Nat.succ_pos n) chunks

end Windows

/-! ## The store and its instances -/

/-- The columns of a document row that decide how it is processed. -/
structure StagedRow (C : Type) where
  content : C
  /-- from the call, which does not check it -/
  maxChunksInFlight : Option ℤ
  status : DocumentStatus
deriving DecidableEq, Repr

/-- A queued document.  `clears` says that its batch found it FAILED or ARCHIVED; an orphan
has no batch. -/
structure StagedItem (D : Type) where
  owner : ℕ
  document : D
  clears : Bool
deriving DecidableEq, Repr

/-- How far an attempt is. -/
inductive StagedProgress (K : Type) where
  /-- before the clean-up -/
  | preparing
  /-- the windows still to be committed -/
  | committing (windows : List (List K))
deriving DecidableEq, Repr

/-- A document that a worker processes, with the row as it was loaded. -/
structure StagedAttempt (D C K : Type) where
  owner : ℕ
  document : D
  row : StagedRow C
  clears : Bool
  stage : StagedProgress K
deriving DecidableEq, Repr

/-- An entry of a batch: its external id, what it wants stored, and the id of a new row. -/
structure StagedEntry (D C : Type) where
  externalId : Option String
  row : StagedRow C
  newId : D

/-- A `submit_batch` call under way: the rows that its lookup found, the entries still to be
staged, and the documents to be queued at its end. -/
structure SubmitCall (D C : Type) where
  owner : ℕ
  reprocessArchived : Bool
  existing : String → Option (D × DocumentStatus)
  entries : List (StagedEntry D C)
  seen : List String := []
  pending : List (StagedItem D) := []

/-- The document rows with their external ids, the stored chunks, and what the instances have
under way. -/
structure StagedStore (D C K : Type) where
  rows : D → Option (StagedRow C)
  externalIds : String → Option D
  chunks : D → List K
  queue : List (StagedItem D)
  attempts : List (StagedAttempt D C K)
  calls : List (SubmitCall D C)

/-- What may happen next.  `stored` says that a row could be written. -/
inductive StagedAction (D C : Type) where
  /-- `submit_batch` looks the external ids up -/
  | submit (owner : ℕ) (reprocessArchived : Bool) (entries : List (StagedEntry D C))
  /-- it stages its next entry -/
  | stage (call : ℕ) (stored : Bool)
  /-- it queues what it staged, or raises without a processor -/
  | enqueue (call : ℕ) (running : Bool)
  /-- `claim_orphaned_documents`, for stale documents of any choice -/
  | claim (owner : ℕ) (documents : List D)
  /-- a worker takes an item and loads its row; `loaded` says that the load does not raise -/
  | load (item : ℕ) (loaded : Bool)
  /-- the clean-up, and the chunking of the content; `configured` is the limit of the engine -/
  | prepare (attempt : ℕ) (configured : Option ℕ+)
  /-- a window of chunks is committed -/
  | commit (attempt : ℕ)
  /-- the row is marked COMPLETED -/
  | complete (attempt : ℕ)
  /-- an exception, and the row is marked FAILED if it can be stored -/
  | fail (attempt : ℕ) (stored : Bool)
  /-- `stop_pending_processor`: the workers are cancelled, the queue stays -/
  | cancel (owner : ℕ)
  /-- the instance is gone -/
  | crash (owner : ℕ)
  /-- somebody sets the row to ARCHIVED -/
  | archive (document : D)

namespace SubmitCall

variable {D C : Type}

/-- The row of an entry, if the lookup found one. -/
def lookup (c : SubmitCall D C) (e : StagedEntry D C) : Option (D × DocumentStatus) :=
  match e.externalId with
  | none => none
  | some x => if x = "" then none else c.existing x

/-- The entry repeats an external id of the batch. -/
def repeats (c : SubmitCall D C) (e : StagedEntry D C) : Bool :=
  match e.externalId with
  | none => false
  | some x => decide (x ≠ "" ∧ x ∈ c.seen)

/-- The call after an entry, which is queued if `item` is given. -/
def next (c : SubmitCall D C) (e : StagedEntry D C) (entries : List (StagedEntry D C))
    (item : Option (StagedItem D)) : SubmitCall D C :=
  { c with
    entries := entries
    seen := e.externalId.toList ++ c.seen
    pending := c.pending ++ item.toList }

end SubmitCall

namespace StagedStore

variable {D C K : Type} [DecidableEq D]

/-- `UPDATE documents ... WHERE id = d` -/
def updateRow (s : StagedStore D C K) (d : D) (r : StagedRow C) : StagedStore D C K :=
  { s with rows := fun x => if x = d then (s.rows d).map fun _ => r else s.rows x }

/-- `INSERT`, which raises if the id is taken. -/
def insertRow (s : StagedStore D C K) (d : D) (externalId : Option String) (r : StagedRow C) :
    StagedStore D C K :=
  { s with
    rows := fun x => if x = d then some r else s.rows x
    externalIds := fun e => if some e = externalId then some d else s.externalIds e }

/-- One entry of `submit_batch`: the store after it and the item to be queued. -/
def stageEntry (s : StagedStore D C K) (c : SubmitCall D C) (e : StagedEntry D C) (stored : Bool) :
    StagedStore D C K × Option (StagedItem D) :=
  let row := { e.row with status := .pending }
  if c.repeats e then (s, none)
  else
    match c.lookup e with
    | some (d, status) =>
        match route c.reprocessArchived status with
        | .skip => (s, none)
        | .requeue clears => if stored then (s.updateRow d row, some ⟨c.owner, d, clears⟩) else (s, none)
    | none =>
        if stored && (s.rows e.newId).isNone then
          (s.insertRow e.newId e.externalId row, some ⟨c.owner, e.newId, false⟩)
        else (s, none)

/-- PENDING and PROCESSING documents are claimed. -/
def claimable (s : StagedStore D C K) (d : D) : Bool :=
  match s.rows d with
  | none => false
  | some r => decide (r.status = .pending ∨ r.status = .processing)

/-- The rows after a claim. -/
def claimRows (s : StagedStore D C K) (ds : List D) (x : D) : Option (StagedRow C) :=
  if x ∈ ds ∧ s.claimable x = true then (s.rows x).map fun r => { r with status := .processing }
  else s.rows x

/-- The existing rows by external id, with their statuses. -/
def lookupExisting (s : StagedStore D C K) (e : String) : Option (D × DocumentStatus) :=
  match s.externalIds e with
  | none => none
  | some d => (s.rows d).map fun r => (d, r.status)

variable (chunking : C → List K)

/-- `max_chunks_in_flight if max_chunks_in_flight is not None else self._vc_config.max_chunks_in_flight` -/
def windowSize (row : StagedRow C) (configured : Option ℕ+) : Option ℤ :=
  row.maxChunksInFlight.or (configured.map fun n => (n : ℕ))

/-- The clean-up, if it is asked for, and the windows of the content. -/
def prepare (s : StagedStore D C K) (n : ℕ) (a : StagedAttempt D C K) (configured : Option ℕ+) : StagedStore D C K :=
  match a.stage, windows (windowSize a.row configured) (chunking a.row.content) with
  | .preparing, some ws => { s with
      chunks := fun x => if x = a.document ∧ a.clears = true then [] else s.chunks x
      attempts := s.attempts.set n { a with stage := .committing ws } }
  | _, _ => s

def commitWindow (s : StagedStore D C K) (n : ℕ) (a : StagedAttempt D C K) : StagedStore D C K :=
  match a.stage with
  | .committing (w :: ws) => { s with
      chunks := fun x => if x = a.document then s.chunks x ++ w else s.chunks x
      attempts := s.attempts.set n { a with stage := .committing ws } }
  | _ => s

/-- The attempt is over and its row is stored with the status. -/
def endAttempt (s : StagedStore D C K) (n : ℕ) (a : StagedAttempt D C K) (status : DocumentStatus) :
    StagedStore D C K :=
  { s.updateRow a.document { a.row with status := status } with attempts := s.attempts.eraseIdx n }

def completeAttempt (s : StagedStore D C K) (n : ℕ) (a : StagedAttempt D C K) : StagedStore D C K :=
  match a.stage with
  | .committing [] => s.endAttempt n a .completed
  | _ => s

/-- A worker loads the row of an item; without one there is nothing to process. -/
def loadItem (s : StagedStore D C K) (n : ℕ) (i : StagedItem D) (loaded : Bool) : StagedStore D C K :=
  match loaded, s.rows i.document with
  | true, some r => { s with
      queue := s.queue.eraseIdx n
      attempts := s.attempts ++ [⟨i.owner, i.document, r, i.clears, .preparing⟩] }
  | _, _ => { s with queue := s.queue.eraseIdx n }

def step (s : StagedStore D C K) : StagedAction D C → StagedStore D C K
  | .submit owner reprocessArchived entries => { s with
      calls := s.calls ++ [⟨owner, reprocessArchived, s.lookupExisting, entries, [], []⟩] }
  | .stage n stored =>
      match s.calls[n]? with
      | none => s
      | some c =>
          match c.entries with
          | [] => s
          | e :: es =>
              let staged := s.stageEntry c e stored
              { staged.1 with calls := s.calls.set n (c.next e es staged.2) }
  | .enqueue n running =>
      match s.calls[n]? with
      | none => s
      | some c =>
          if c.entries.isEmpty then { s with
            queue := if running then s.queue ++ c.pending else s.queue
            calls := s.calls.eraseIdx n }
          else s
  | .claim owner ds => { s with
      rows := s.claimRows ds
      queue := s.queue ++ (ds.filter fun d => s.claimable d).map fun d => ⟨owner, d, false⟩ }
  | .load n loaded =>
      match s.queue[n]? with
      | none => s
      | some i => s.loadItem n i loaded
  | .prepare n configured =>
      match s.attempts[n]? with
      | none => s
      | some a => s.prepare chunking n a configured
  | .commit n =>
      match s.attempts[n]? with
      | none => s
      | some a => s.commitWindow n a
  | .complete n =>
      match s.attempts[n]? with
      | none => s
      | some a => s.completeAttempt n a
  | .fail n stored =>
      match s.attempts[n]? with
      | none => s
      | some a =>
          if stored then s.endAttempt n a .failed
          else { s with attempts := s.attempts.eraseIdx n }
  | .cancel owner => { s with attempts := s.attempts.filter fun a => a.owner ≠ owner }
  | .crash owner => { s with
      attempts := s.attempts.filter fun a => a.owner ≠ owner
      queue := s.queue.filter fun i => i.owner ≠ owner
      calls := s.calls.filter fun c => c.owner ≠ owner }
  | .archive d => { s with
      rows := fun x => if x = d then (s.rows d).map fun r => { r with status := .archived } else s.rows x }

/-- The document is not stored as COMPLETED. -/
def NotCompleted (s : StagedStore D C K) (d : D) : Prop := ∀ r, s.rows d = some r → r.status ≠ .completed

/-- A document is taken up while no one processes it, and without chunks of an earlier attempt
that are not cleared; the row that was loaded has no negative limit.  An attempt that ends without
storing its row is not on a COMPLETED document. -/
def Undisturbed (s : StagedStore D C K) : StagedAction D C → Prop
  | .load n _ => ∀ i, s.queue[n]? = some i →
      (∀ a ∈ s.attempts, a.document ≠ i.document) ∧ (i.clears = true ∨ s.chunks i.document = [])
  | .prepare n _ => ∀ a, s.attempts[n]? = some a → ∀ size ∈ a.row.maxChunksInFlight, 0 ≤ size
  | .fail n false => ∀ a, s.attempts[n]? = some a → s.NotCompleted a.document
  | .cancel owner => ∀ a ∈ s.attempts, a.owner = owner → s.NotCompleted a.document
  | .crash owner => ∀ a ∈ s.attempts, a.owner = owner → s.NotCompleted a.document
  | _ => True

end StagedStore

/-! ## One copy of every chunk -/

/-- What is stored of the document so far, and what the attempt will still commit, are the
chunks of the content that it loaded. -/
def StagedAttempt.Partway {D C K : Type} (chunking : C → List K) (a : StagedAttempt D C K) (stored : List K) : Prop :=
  match a.stage with
  | .preparing => a.clears = true ∨ stored = []
  | .committing ws => stored ++ ws.flatten = chunking a.row.content

namespace StagedStore

variable {D C K : Type} {chunking : C → List K}

/-- Every document has at most one attempt, every attempt is on its way, and the other
COMPLETED documents are whole. -/
structure Exact (chunking : C → List K) (s : StagedStore D C K) : Prop where
  single : (s.attempts.map StagedAttempt.document).Nodup
  partway : ∀ a ∈ s.attempts, a.Partway chunking (s.chunks a.document)
  whole : ∀ d r, s.rows d = some r → r.status = .completed → (∀ a ∈ s.attempts, a.document ≠ d) →
    s.chunks d = chunking r.content

variable {s s' : StagedStore D C K}

/-- Rows may change as long as none becomes COMPLETED, and attempts may end as long as none
leaves a COMPLETED row behind. -/
theorem Exact.frame (h : s.Exact chunking) (hchunks : s'.chunks = s.chunks)
    (hrows : ∀ d r, s'.rows d = some r → r.status = .completed → s.rows d = some r)
    (hsub : s'.attempts.Sublist s.attempts)
    (hended : ∀ a ∈ s.attempts, a ∉ s'.attempts → s'.NotCompleted a.document) : s'.Exact chunking where
  single := h.single.sublist (hsub.map _)
  partway := by
    intro a ha
    rw [hchunks]
    exact h.partway a (hsub.subset ha)
  whole := by
    intro d r hr hcompleted hfree
    rw [hchunks]
    refine h.whole d r (hrows d r hr hcompleted) hcompleted fun a ha heq => ?_
    by_cases ha' : a ∈ s'.attempts
    · exact hfree a ha' heq
    · exact hended a ha ha' r (heq ▸ hr) hcompleted

theorem mem_eraseIdx_of_ne {α : Type} {l : List α} {n : ℕ} {a b : α} (ha : l[n]? = some a) (hb : b ∈ l)
    (hne : b ≠ a) : b ∈ l.eraseIdx n := by
  obtain ⟨m, hm⟩ := List.getElem?_of_mem hb
  refine List.mem_eraseIdx_iff_getElem?.mpr ⟨m, fun heq => ?_, hm⟩
  subst heq
  rw [ha] at hm
  exact hne (Option.some.inj hm).symm

/-- One attempt set apart from the others, which are on other documents. -/
theorem Exact.split (h : s.Exact chunking) {n : ℕ} {a : StagedAttempt D C K} (ha : s.attempts[n]? = some a) :
    ∃ l r, s.attempts = l ++ a :: r ∧ (∀ a', s.attempts.set n a' = l ++ a' :: r) ∧
      ∀ b ∈ l ++ r, b.document ≠ a.document := by
  obtain ⟨hn, hget⟩ := List.getElem?_eq_some_iff.mp ha
  have hsplit : s.attempts = s.attempts.take n ++ a :: s.attempts.drop (n + 1) := by
    rw [← hget, ← List.drop_eq_getElem_cons hn, List.take_append_drop]
  refine ⟨s.attempts.take n, s.attempts.drop (n + 1), hsplit, ?_, ?_⟩
  · intro a'
    rw [List.set_eq_take_append_cons_drop, if_pos hn]
  · have hnodup := h.single
    rw [hsplit, List.map_append, List.map_cons, List.perm_middle.nodup_iff,
      List.nodup_cons] at hnodup
    intro b hb heq
    apply hnodup.1
    rw [← List.map_append]
    exact List.mem_map.mpr ⟨b, hb, heq⟩

/-- An attempt goes on; only the chunks of its document may change. -/
theorem Exact.progress (h : s.Exact chunking) {n : ℕ} {a a' : StagedAttempt D C K}
    (ha : s.attempts[n]? = some a) (hattempts : s'.attempts = s.attempts.set n a')
    (hdoc : a'.document = a.document) (hrows : s'.rows = s.rows)
    (hother : ∀ d, d ≠ a.document → s'.chunks d = s.chunks d)
    (hpartway : a'.Partway chunking (s'.chunks a.document)) : s'.Exact chunking := by
  obtain ⟨l, r, hsplit, hset, hne⟩ := h.split ha
  have hmem : ∀ b ∈ s'.attempts, b = a' ∨ (b ∈ s.attempts ∧ b.document ≠ a.document) := by
    intro b hb
    rw [hattempts, hset, List.mem_append, List.mem_cons] at hb
    have hrest : b ∈ l ++ r → b ∈ s.attempts ∧ b.document ≠ a.document := by
      intro hb
      refine ⟨?_, hne b hb⟩
      rw [hsplit, List.mem_append, List.mem_cons]
      rcases List.mem_append.mp hb with hb | hb
      · exact .inl hb
      · exact .inr (.inr hb)
    rcases hb with hb | rfl | hb
    · exact .inr (hrest (List.mem_append_left _ hb))
    · exact .inl rfl
    · exact .inr (hrest (List.mem_append_right _ hb))
  have hdocs : s'.attempts.map StagedAttempt.document = s.attempts.map StagedAttempt.document := by
    rw [hattempts, hset, hsplit, List.map_append, List.map_append, List.map_cons, List.map_cons, hdoc]
  constructor
  case single =>
    rw [hdocs]
    exact h.single
  case partway =>
    intro b hb
    rcases hmem b hb with rfl | ⟨hb, hbd⟩
    · rw [hdoc]
      exact hpartway
    · rw [hother _ hbd]
      exact h.partway b hb
  case whole =>
    intro d row hrow hcompleted hfree
    have hfree' : ∀ b ∈ s.attempts, b.document ≠ d := by
      intro b hb heq
      have : d ∈ s'.attempts.map StagedAttempt.document := hdocs ▸ List.mem_map.mpr ⟨b, hb, heq⟩
      obtain ⟨b', hb', heq'⟩ := List.mem_map.mp this
      exact hfree b' hb' heq'
    have hd : d ≠ a.document := (hfree' a (List.mem_of_getElem? ha)).symm
    rw [hrows] at hrow
    rw [hother d hd]
    exact h.whole d row hrow hcompleted hfree'

/-- A document is taken up. -/
theorem Exact.load (h : s.Exact chunking) {n : ℕ} {i : StagedItem D} {loaded : Bool}
    (hfree : ∀ a ∈ s.attempts, a.document ≠ i.document)
    (hclean : i.clears = true ∨ s.chunks i.document = []) : (s.loadItem n i loaded).Exact chunking := by
  unfold loadItem
  split
  next row hrow =>
    constructor
    case single =>
      show ((s.attempts ++ [_]).map StagedAttempt.document).Nodup
      rw [List.map_append, List.perm_append_comm.nodup_iff, List.map_singleton, List.singleton_append,
        List.nodup_cons]
      refine ⟨fun hmem => ?_, h.single⟩
      obtain ⟨a, ha, heq⟩ := List.mem_map.mp hmem
      exact hfree a ha heq
    case partway =>
      intro a ha
      rcases List.mem_append.mp ha with ha | ha
      · exact h.partway a ha
      · rw [List.mem_singleton.mp ha]
        exact hclean
    case whole =>
      intro d r hr hcompleted hnone
      exact h.whole d r hr hcompleted fun a ha => hnone a (List.mem_append_left _ ha)
  · exact h.frame rfl (fun d r hr _ => hr) (List.Sublist.refl _) fun a ha ha' => absurd ha ha'

/-- An attempt on a document that is not COMPLETED is cut off. -/
theorem Exact.dropped (h : s.Exact chunking) {p : StagedAttempt D C K → Bool} (hchunks : s'.chunks = s.chunks)
    (hrows : s'.rows = s.rows) (hattempts : s'.attempts = s.attempts.filter p)
    (hended : ∀ a ∈ s.attempts, p a = false → s.NotCompleted a.document) : s'.Exact chunking := by
  refine h.frame hchunks (fun d r hr _ => hrows ▸ hr) (hattempts ▸ List.filter_sublist) ?_
  intro a ha ha'
  rw [hattempts, List.mem_filter, not_and, Bool.not_eq_true] at ha'
  unfold NotCompleted
  rw [hrows]
  exact hended a ha (ha' ha)

theorem Exact.fail (h : s.Exact chunking) {n : ℕ} {a : StagedAttempt D C K} (ha : s.attempts[n]? = some a)
    (hended : s.NotCompleted a.document) : { s with attempts := s.attempts.eraseIdx n }.Exact chunking := by
  refine h.frame rfl (fun d r hr _ => hr) (List.eraseIdx_sublist _ _) fun b hb hb' => ?_
  have hba : b = a := by
    by_contra hne
    exact hb' (mem_eraseIdx_of_ne ha hb hne)
  rw [hba]
  exact hended

variable [DecidableEq D]

theorem windowSize_nonneg {row : StagedRow C} (h : ∀ size ∈ row.maxChunksInFlight, 0 ≤ size)
    (configured : Option ℕ+) : ∀ size ∈ windowSize row configured, 0 ≤ size := by
  intro size hsize
  unfold windowSize at hsize
  cases hrow : row.maxChunksInFlight with
  | some n =>
      rw [hrow] at hsize
      exact h size (hrow ▸ hsize)
  | none =>
      rw [hrow] at hsize
      obtain ⟨n, -, rfl⟩ := Option.map_eq_some_iff.mp hsize
      exact Int.natCast_nonneg n

theorem Exact.prepare (h : s.Exact chunking) {n : ℕ} {a : StagedAttempt D C K} (ha : s.attempts[n]? = some a)
    {configured : Option ℕ+} (hsize : ∀ size ∈ a.row.maxChunksInFlight, 0 ≤ size) :
    (s.prepare chunking n a configured).Exact chunking := by
  unfold StagedStore.prepare
  split
  next ws hstage hws =>
    have hpartway := h.partway a (List.mem_of_getElem? ha)
    unfold StagedAttempt.Partway at hpartway
    rw [hstage] at hpartway
    refine h.progress ha rfl rfl rfl ?_ ?_
    · intro d hd
      exact if_neg fun hboth => hd hboth.1
    · show (if a.document = a.document ∧ a.clears = true then [] else s.chunks a.document) ++ ws.flatten = _
      have hempty : (if a.document = a.document ∧ a.clears = true then [] else s.chunks a.document) = [] := by
        rcases hpartway with hclears | hnil
        · exact if_pos ⟨rfl, hclears⟩
        · rw [hnil, ite_self]
      rw [hempty, List.nil_append]
      exact flatten_windows hws (windowSize_nonneg hsize configured)
  · exact h

theorem Exact.commitWindow (h : s.Exact chunking) {n : ℕ} {a : StagedAttempt D C K}
    (ha : s.attempts[n]? = some a) : (s.commitWindow n a).Exact chunking := by
  unfold StagedStore.commitWindow
  split
  next w ws hstage =>
    have hpartway := h.partway a (List.mem_of_getElem? ha)
    unfold StagedAttempt.Partway at hpartway
    rw [hstage] at hpartway
    refine h.progress ha rfl rfl rfl (fun d hd => if_neg hd) ?_
    show (if a.document = a.document then s.chunks a.document ++ w else s.chunks a.document) ++ ws.flatten = _
    rw [if_pos rfl, List.append_assoc]
    exact hpartway
  · exact h

/-- The end of an attempt that stores its row: if as COMPLETED, then all is committed. -/
theorem Exact.endAttempt (h : s.Exact chunking) {n : ℕ} {a : StagedAttempt D C K}
    (ha : s.attempts[n]? = some a) {status : DocumentStatus}
    (hall : status = .completed → s.chunks a.document = chunking a.row.content) :
    (s.endAttempt n a status).Exact chunking := by
  have hsub : (s.attempts.eraseIdx n).Sublist s.attempts := List.eraseIdx_sublist _ _
  constructor
  case single => exact h.single.sublist (hsub.map _)
  case partway =>
    intro b hb
    exact h.partway b (hsub.subset hb)
  case whole =>
    intro d row hrow hcompleted hfree
    have hrow : (if d = a.document then (s.rows a.document).map fun _ => { a.row with status := status }
      else s.rows d) = some row := hrow
    show s.chunks d = chunking row.content
    split at hrow
    next hd =>
      obtain ⟨_, -, rfl⟩ := Option.map_eq_some_iff.mp hrow
      rw [hd]
      exact hall hcompleted
    next hd =>
      refine h.whole d row hrow hcompleted fun b hb heq => ?_
      by_cases hba : b = a
      · exact hd (heq ▸ hba ▸ rfl)
      · exact hfree b (mem_eraseIdx_of_ne ha hb hba) heq

/-- A row that is written by `submit_batch` is PENDING. -/
theorem stageEntry_rows (s : StagedStore D C K) (c : SubmitCall D C) (e : StagedEntry D C) (stored : Bool) :
    (s.stageEntry c e stored).1.chunks = s.chunks ∧ (s.stageEntry c e stored).1.attempts = s.attempts ∧
      ∀ d r, (s.stageEntry c e stored).1.rows d = some r → r.status = .completed → s.rows d = some r := by
  have hself : s.chunks = s.chunks ∧ s.attempts = s.attempts ∧
      ∀ d r, s.rows d = some r → r.status = .completed → s.rows d = some r :=
    ⟨rfl, rfl, fun _ _ h _ => h⟩
  unfold stageEntry
  dsimp only
  split
  · exact hself
  · split
    next d status _ =>
      cases route c.reprocessArchived status with
      | skip => exact hself
      | requeue clears =>
          dsimp only
          split
          · refine ⟨rfl, rfl, fun x r hr hcompleted => ?_⟩
            have hr : (if x = d then (s.rows d).map fun _ => { e.row with status := .pending }
              else s.rows x) = some r := hr
            split at hr
            · obtain ⟨_, -, rfl⟩ := Option.map_eq_some_iff.mp hr
              cases hcompleted
            · exact hr
          · exact hself
    next =>
      split
      · refine ⟨rfl, rfl, fun x r hr hcompleted => ?_⟩
        have hr : (if x = e.newId then some { e.row with status := .pending } else s.rows x) = some r := hr
        split at hr
        · cases hr
          cases hcompleted
        · exact hr
      · exact hself

theorem claimRows_completed (s : StagedStore D C K) (ds : List D) {d : D} {r : StagedRow C}
    (h : s.claimRows ds d = some r) (hcompleted : r.status = .completed) : s.rows d = some r := by
  unfold claimRows at h
  split at h
  · obtain ⟨_, -, rfl⟩ := Option.map_eq_some_iff.mp h
    cases hcompleted
  · exact h

/-- **Every step that disturbs no attempt keeps one copy of every chunk.** -/
theorem Exact.step (h : s.Exact chunking) (a : StagedAction D C) (ha : s.Undisturbed a) :
    (s.step chunking a).Exact chunking := by
  have hsame : ∀ {s' : StagedStore D C K}, s'.chunks = s.chunks → s'.attempts = s.attempts →
      (∀ d r, s'.rows d = some r → r.status = .completed → s.rows d = some r) → s'.Exact chunking := by
    intro s' hchunks hattempts hrows
    refine h.frame hchunks hrows (hattempts ▸ List.Sublist.refl _) fun b hb hb' => ?_
    exact absurd (hattempts ▸ hb) hb'
  cases a with
  | submit owner reprocessArchived entries => exact hsame rfl rfl fun _ _ hr _ => hr
  | stage n stored =>
      rw [StagedStore.step]
      cases s.calls[n]? with
      | none => exact h
      | some c =>
          dsimp only
          cases c.entries with
          | nil => exact h
          | cons e es =>
              obtain ⟨hchunks, hattempts, hrows⟩ := s.stageEntry_rows c e stored
              exact hsame hchunks hattempts hrows
  | enqueue n running =>
      rw [StagedStore.step]
      cases s.calls[n]? with
      | none => exact h
      | some c =>
          dsimp only
          split
          · exact hsame rfl rfl fun _ _ hr _ => hr
          · exact h
  | claim owner ds => exact hsame rfl rfl fun d r hr hc => s.claimRows_completed ds hr hc
  | load n loaded =>
      rw [StagedStore.step]
      cases hi : s.queue[n]? with
      | none => exact h
      | some i => exact h.load (ha i hi).1 (ha i hi).2
  | prepare n configured =>
      rw [StagedStore.step]
      cases hn : s.attempts[n]? with
      | none => exact h
      | some a => exact h.prepare hn (ha a hn)
  | commit n =>
      rw [StagedStore.step]
      cases hn : s.attempts[n]? with
      | none => exact h
      | some a => exact h.commitWindow hn
  | complete n =>
      rw [StagedStore.step]
      cases hn : s.attempts[n]? with
      | none => exact h
      | some a =>
          show (s.completeAttempt n a).Exact chunking
          unfold completeAttempt
          split
          next hstage =>
            refine h.endAttempt hn fun _ => ?_
            have hpartway := h.partway a (List.mem_of_getElem? hn)
            unfold StagedAttempt.Partway at hpartway
            rw [hstage] at hpartway
            exact (List.append_nil _).symm.trans hpartway
          · exact h
  | fail n stored =>
      rw [StagedStore.step]
      cases hn : s.attempts[n]? with
      | none => exact h
      | some a =>
          cases stored with
          | true => exact h.endAttempt hn fun hc => by cases hc
          | false => exact h.fail hn (ha a hn)
  | cancel owner =>
      refine h.dropped rfl rfl rfl fun a hmem hout => ha a hmem ?_
      exact of_not_not (of_decide_eq_false hout)
  | crash owner =>
      refine h.dropped rfl rfl rfl fun a hmem hout => ha a hmem ?_
      exact of_not_not (of_decide_eq_false hout)
  | archive d =>
      refine hsame rfl rfl fun x r hr hcompleted => ?_
      have hr : (if x = d then (s.rows d).map fun r => { r with status := .archived } else s.rows x) = some r := hr
      split at hr
      · obtain ⟨_, -, rfl⟩ := Option.map_eq_some_iff.mp hr
        cases hcompleted
      · exact hr

end StagedStore

/-- Nothing is stored yet. -/
def StagedStore.empty {D C K : Type} : StagedStore D C K where
  rows := fun _ => none
  externalIds := fun _ => none
  chunks := fun _ => []
  queue := []
  attempts := []
  calls := []

theorem StagedStore.exact_empty {D C K : Type} (chunking : C → List K) :
    (StagedStore.empty : StagedStore D C K).Exact chunking where
  single := List.nodup_nil
  partway := List.forall_mem_nil _
  whole := fun d r hr => by cases hr

/-- **A COMPLETED document has exactly one copy of the chunks of its content**, in every run
whose steps disturb no attempt. -/
theorem completed_exact {D C K : Type} [DecidableEq D] (chunking : C → List K)
    (acts : List (StagedAction D C))
    (h : Runs.Guarded (StagedStore.step chunking) StagedStore.Undisturbed .empty acts) :
    let s := Runs.run (StagedStore.step chunking) .empty acts
    ∀ d r, s.rows d = some r → r.status = .completed → (∀ a ∈ s.attempts, a.document ≠ d) →
      s.chunks d = chunking r.content :=
  (Runs.run_invariant (fun _ a hs ha => hs.step a ha) (StagedStore.exact_empty chunking) h).whole

/-- The document `"a"`, in windows of one chunk; its row would have the id 1. -/
def entryA : StagedEntry ℕ String where
  externalId := some "a"
  row := ⟨"text", some 1, .pending⟩
  newId := 1

def twoChunks (content : String) : List String := [content, content]

/-- The document fails after its first window; it is submitted again and goes through, and once more after it
was archived. -/
def failedThenAgain : List (StagedAction ℕ String) :=
  [.submit 0 false [entryA], .stage 0 true, .enqueue 0 true, .load 0 true, .prepare 0 none, .commit 0, .fail 0 true,
    .submit 0 false [entryA], .stage 0 true, .enqueue 0 true, .load 0 true, .prepare 0 none, .commit 0, .commit 0,
    .complete 0, .archive 1, .submit 0 true [entryA], .stage 0 true, .enqueue 0 true, .load 0 true, .prepare 0 none,
    .commit 0, .commit 0, .complete 0]

theorem completed_exact_failedThenAgain :
    Runs.Guarded (StagedStore.step twoChunks) StagedStore.Undisturbed .empty failedThenAgain ∧
      (Runs.run (StagedStore.step twoChunks) .empty failedThenAgain).rows 1 =
        some ⟨"text", some 1, .completed⟩ ∧
      (Runs.run (StagedStore.step twoChunks) .empty failedThenAgain).chunks 1 = ["text", "text"] := by
  have hlimit : ∀ (a b : StagedAttempt ℕ String String), a.row.maxChunksInFlight = some 1 → some a = some b →
      ∀ size ∈ b.row.maxChunksInFlight, 0 ≤ size := by
    intro a b ha hb size hsize
    cases hb
    rw [ha] at hsize
    cases hsize
    decide
  have hguard : Runs.Guarded (StagedStore.step twoChunks) StagedStore.Undisturbed .empty failedThenAgain := by
    refine ⟨trivial, trivial, trivial, ?_, fun b hb => hlimit _ b rfl hb, trivial, trivial, trivial, trivial, trivial,
      ?_, fun b hb => hlimit _ b rfl hb, trivial, trivial, trivial, trivial, trivial, trivial, trivial, ?_,
      fun b hb => hlimit _ b rfl hb, trivial, trivial, trivial, trivial⟩
    · intro i hi
      exact ⟨List.forall_mem_nil _, .inr rfl⟩
    · intro i hi
      cases hi
      exact ⟨List.forall_mem_nil _, .inl rfl⟩
    · intro i hi
      cases hi
      exact ⟨List.forall_mem_nil _, .inl rfl⟩
  have hrow : (Runs.run (StagedStore.step twoChunks) .empty failedThenAgain).rows 1 =
      some ⟨"text", some 1, .completed⟩ := by decide
  refine ⟨hguard, hrow, ?_⟩
  refine completed_exact twoChunks failedThenAgain hguard 1 _ hrow rfl ?_
  exact List.forall_mem_nil _

/-- The document is submitted again while it is PENDING, and both items are processed. -/
def submittedTwice : List (StagedAction ℕ String) :=
  [.submit 0 false [entryA], .stage 0 true, .enqueue 0 true, .submit 0 false [entryA], .stage 0 true,
    .enqueue 0 true, .load 0 true, .prepare 0 none, .commit 0, .commit 0, .complete 0, .load 0 true,
    .prepare 0 none, .commit 0, .commit 0, .complete 0]

/-- **A document that is queued twice is stored twice.** -/
theorem resubmitted_twice :
    ¬∀ d r, (Runs.run (StagedStore.step twoChunks) .empty submittedTwice).rows d = some r →
      r.status = .completed →
      (∀ a ∈ (Runs.run (StagedStore.step twoChunks) .empty submittedTwice).attempts, a.document ≠ d) →
      (Runs.run (StagedStore.step twoChunks) .empty submittedTwice).chunks d = twoChunks r.content := by
  intro hall
  have hrow : (Runs.run (StagedStore.step twoChunks) .empty submittedTwice).rows 1 =
      some ⟨"text", some 1, .completed⟩ := by decide
  have hchunks : (Runs.run (StagedStore.step twoChunks) .empty submittedTwice).chunks 1 =
      ["text", "text", "text", "text"] := by decide
  have hone := hall 1 _ hrow rfl (List.forall_mem_nil _)
  rw [hchunks] at hone
  cases hone

end Khora
