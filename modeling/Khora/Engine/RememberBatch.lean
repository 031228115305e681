import Khora.Accel.CharClass
import Khora.Lib.OrderedDict
import Mathlib.Algebra.GroupWithZero.Nat
import Mathlib.Data.List.Nodup
import Mathlib.Data.List.Range

/-!
# Remembering a batch

The streaming path of `remember_batch`: documents whose `external_id` is stored are replaced, then
duplicates are skipped, then the rest is created and processed in windows.

* `get?_extIdToIdx` — the pre-pass takes the last input of each `external_id`.
* `flatten_buildWindows` — the windows hold every document once, in order.
* `tally_foldl` — what the counters come to when every input is recorded once.
-/

namespace Khora

namespace RememberBatch

variable {Id S K : Type}

/-! ## Documents -/

inductive DocumentStatus where
  | pending
  | processing
  | completed
  | failed
  | archived
deriving DecidableEq

/-- A row of `documents` in the namespace. -/
structure Document (Id S K : Type) where
  id : Id
  content : String
  checksum : K
  externalId : Option String
  sessionId : Option S
  status : DocumentStatus
  updatedAt : ℤ
  chunkCount : ℕ
deriving DecidableEq

/-- An input; the session is the one that its metadata name. -/
structure Entry (S : Type) where
  content : String
  source : String
  externalId : Option String
  sessionId : Option S
deriving DecidableEq

/-- `_reingestable_exclusion`: neither failed nor a stale half-ingest. -/
def dedupable (staleBefore : ℤ) (d : Document Id S K) : Bool :=
  decide (d.status ≠ .failed ∧ (d.status ≠ .pending ∨ staleBefore ≤ d.updatedAt))

/-- `get_document_by_checksum`: the first row; the rows come in the order of the list. -/
def getDocumentByChecksum [DecidableEq K] (staleBefore : ℤ) (store : List (Document Id S K)) (checksum : K) :
    Option (Document Id S K) :=
  store.find? fun d => decide (d.checksum = checksum) && dedupable staleBefore d

/-- `get_documents_by_checksums`: of the rows of one checksum the last one stays in the dictionary. -/
def getDocumentsByChecksums [DecidableEq K] (staleBefore : ℤ) (store : List (Document Id S K))
    (checksum : K) : Option (Document Id S K) :=
  store.reverse.find? fun d => decide (d.checksum = checksum) && dedupable staleBefore d

/-- `_checksum_dedup_applies` -/
def checksumDedupApplies [DecidableEq S] (existing : Document Id S K) (e : Entry S) : Bool :=
  (e.externalId.isNone || decide (existing.externalId = e.externalId)) &&
    (e.sessionId.isNone || decide (existing.sessionId = e.sessionId))

/-- The row of an `external_id`, of any status. -/
def getDocumentByExternalId (store : List (Document Id S K)) (externalId : String) :
    Option (Document Id S K) :=
  store.find? fun d => decide (d.externalId = some externalId)

/-- `create_document`, with the unique index over `external_id`. -/
def createDocument (store : List (Document Id S K)) (d : Document Id S K) :
    Option (List (Document Id S K)) :=
  if d.externalId ≠ none ∧ ∃ d' ∈ store, d'.externalId = d.externalId then none else some (store ++ [d])

/-! ## What a batch meets -/

/-- What becomes of an input in stage 1 on its own account. -/
inductive Creation where
  /-- an error before the row is written -/
  | rejected (error : String)
  /-- an error after the row is written -/
  | broken (error : String)
  | chunked (n : ℕ)

/-- The settings, the outcomes of the calls, and the order of the concurrent inserts. -/
structure Env (Id S K : Type) where
  sha256 : String → K
  staleBefore : ℤ
  now : ℤ
  deduplicate : Bool
  maxChunksInFlight : Option ℕ
  /-- the id that the document of an input gets -/
  newId : ℕ → Id
  /-- the chunks of a replacement, or its error -/
  replacement : ℕ → Except String ℕ
  /-- what a failed replacement leaves of the row -/
  leftOver : ℕ → Document Id S K → Document Id S K
  creation : ℕ → Creation
  insertOrder : List ℕ → List ℕ
  insertOrder_perm : ∀ active, (insertOrder active).Perm active
  uniqueViolation : String

/-! ## Recording -/

/-- An entry of `per_document`; an error comes with the `external_id`. -/
structure DocRecord (Id : Type) where
  documentId : Option Id
  source : Option String
  chunks : ℕ
  skipped : Bool
  error : Option (Option String × String)
deriving DecidableEq

inductive Outcome (Id : Type) where
  | processed (id : Id) (chunks : ℕ)
  | skipped (id : Option Id)
  | failed (id : Option Id) (error : String)

/-- The counters, the calls of `on_progress` and `per_document`. -/
structure Batch (Id : Type) where
  processed : ℕ
  skipped : ℕ
  failed : ℕ
  chunks : ℕ
  progress : List (ℕ × ℕ)
  perDocument : List (Option (DocRecord Id))
deriving DecidableEq

/-- `documents[idx].get("source") or None` -/
def sourceOf (docs : List (Entry S)) (idx : ℕ) : Option String :=
  (docs[idx]?).bind fun e => if e.source = "" then none else some e.source

/-- `_record_doc` -/
def entryOf (docs : List (Entry S)) (idx : ℕ) : Outcome Id → DocRecord Id
  | .processed id chunks => ⟨some id, sourceOf docs idx, chunks, false, none⟩
  | .skipped id => ⟨id, sourceOf docs idx, 0, true, none⟩
  | .failed id error => ⟨id, sourceOf docs idx, 0, false, some ((docs[idx]?).bind Entry.externalId, error)⟩

/-- A counter, the entry and the progress of one input. -/
def record (docs : List (Entry S)) (b : Batch Id) (p : ℕ × Outcome Id) : Batch Id where
  processed := b.processed + match p.2 with | .processed _ _ => 1 | _ => 0
  skipped := b.skipped + match p.2 with | .skipped _ => 1 | _ => 0
  failed := b.failed + match p.2 with | .failed _ _ => 1 | _ => 0
  chunks := b.chunks + match p.2 with | .processed _ n => n | _ => 0
  progress := b.progress ++ [(b.progress.length + 1, docs.length)]
  perDocument := b.perDocument.set p.1 (some (entryOf docs p.1 p.2))

/-- The identity of an input within the batch. -/
abbrev IdentityKey (S K : Type) := K × Option String × Option S

def identityKey (env : Env Id S K) (e : Entry S) : IdentityKey S K :=
  (env.sha256 e.content, e.externalId, e.sessionId)

/-- The variables of `_remember_batch_impl`; `winners` is `winner_idx_by_identity`, whose keys are
`identity_seen`, and `ids` is `document_id_by_idx`. -/
structure State (Id S K : Type) where
  store : List (Document Id S K)
  batch : Batch Id
  handled : List ℕ
  winners : List (IdentityKey S K × ℕ)
  active : List ℕ
  dups : List (ℕ × IdentityKey S K)
  ids : List (ℕ × Id)

def start (docs : List (Entry S)) (store : List (Document Id S K)) : State Id S K :=
  ⟨store, ⟨0, 0, 0, 0, [], docs.map fun _ => none⟩, [], [], [], [], []⟩

/-! ## Stage 0a: replacements -/

/-- `not ext_id.strip()` -/
def isBlank (s : String) : Bool := s.toList.all pythonSpace

/-- `ext_id_to_idx`: the last input of each `external_id`. -/
def extIdToIdx (docs : List (Entry S)) : OrderedDict String ℕ :=
  docs.zipIdx.foldl (fun d p =>
    match p.1.externalId with
    | some x => if isBlank x then d else d.set x p.2
    | none => d) .empty

/-- `_remember_via_replace` on the row: a session that is not supplied stays. -/
def replaceDocument [DecidableEq Id] (env : Env Id S K) (e : Entry S) (idx : ℕ)
    (existing : Document Id S K) (store : List (Document Id S K)) : List (Document Id S K) :=
  store.map fun d =>
    if d.id = existing.id then
      match env.replacement idx with
      | .ok n => { d with
          content := e.content
          checksum := env.sha256 e.content
          sessionId := e.sessionId <|> d.sessionId
          status := .completed
          updatedAt := env.now
          chunkCount := n }
      | .error _ => { env.leftOver idx d with id := d.id, externalId := d.externalId }
    else d

def replaceOutcome (env : Env Id S K) (existing : Document Id S K) (idx : ℕ) : Outcome Id :=
  match env.replacement idx with
  | .ok n => .processed existing.id n
  | .error error => .failed none error

variable [DecidableEq Id] [DecidableEq S] [DecidableEq K]

def replaceStep (env : Env Id S K) (docs : List (Entry S)) (stored : List (Document Id S K))
    (s : State Id S K) (p : String × ℕ) : State Id S K :=
  match getDocumentByExternalId stored p.1, docs[p.2]? with
  | some existing, some e =>
      { s with
        store := replaceDocument env e p.2 existing s.store
        batch := record docs s.batch (p.2, replaceOutcome env existing p.2)
        handled := s.handled ++ [p.2] }
  | _, _ => s

/-- The pre-pass. -/
def replaceStored (env : Env Id S K) (docs : List (Entry S)) (s : State Id S K) : State Id S K :=
  (extIdToIdx docs).items.foldl (replaceStep env docs s.store) s

/-! ## Stage 0: duplicates -/

/-- The stored document that makes an input a duplicate. -/
def dbDup (env : Env Id S K) (store : List (Document Id S K)) (e : Entry S) : Option (Document Id S K) :=
  if env.deduplicate then
    (getDocumentsByChecksums env.staleBefore store (env.sha256 e.content)).filter
      (checksumDedupApplies · e)
  else none

def dedupStep (env : Env Id S K) (docs : List (Entry S)) (s : State Id S K) (p : Entry S × ℕ) :
    State Id S K :=
  if p.2 ∈ s.handled then s
  else
    match dbDup env s.store p.1 with
    | some d => { s with batch := record docs s.batch (p.2, .skipped (some d.id)) }
    | none =>
        if identityKey env p.1 ∈ s.winners.map Prod.fst then
          { s with
            batch := record docs s.batch (p.2, .skipped none)
            dups := s.dups ++ [(p.2, identityKey env p.1)] }
        else
          { s with
            winners := s.winners ++ [(identityKey env p.1, p.2)]
            active := s.active ++ [p.2] }

def skipDuplicates (env : Env Id S K) (docs : List (Entry S)) (s : State Id S K) : State Id S K :=
  docs.zipIdx.foldl (dedupStep env docs) s

/-! ## Stage 1: creation -/

/-- `_DocState` after its task. -/
inductive DocState (Id : Type) where
  | failed (document : Option Id) (error : String)
  | created (document : Id) (chunks : ℕ)

/-- The row of a new document. -/
def newDocument (env : Env Id S K) (idx : ℕ) (e : Entry S) : Document Id S K :=
  ⟨env.newId idx, e.content, env.sha256 e.content, e.externalId, e.sessionId, .pending, env.now, 0⟩

/-- `_create_and_chunk` -/
def createStep (env : Env Id S K) (docs : List (Entry S))
    (s : List (Document Id S K) × (ℕ → DocState Id)) (idx : ℕ) :
    List (Document Id S K) × (ℕ → DocState Id) :=
  match env.creation idx, docs[idx]? with
  | .rejected error, _ => (s.1, Function.update s.2 idx (.failed none error))
  | _, none => s
  | .broken error, some e =>
      match createDocument s.1 (newDocument env idx e) with
      | some store => (store, Function.update s.2 idx (.failed (some (env.newId idx)) error))
      | none => (s.1, Function.update s.2 idx (.failed none env.uniqueViolation))
  | .chunked n, some e =>
      match createDocument s.1 (newDocument env idx e) with
      | some store => (store, Function.update s.2 idx (.created (env.newId idx) n))
      | none => (s.1, Function.update s.2 idx (.failed none env.uniqueViolation))

/-- The tasks, in the order of their inserts; every task ends, so the first value is not seen. -/
def createAll (env : Env Id S K) (docs : List (Entry S)) (s : State Id S K) :
    List (Document Id S K) × (ℕ → DocState Id) :=
  (env.insertOrder s.active).foldl (createStep env docs) (s.store, fun _ => .failed none "")

/-- `mark_completed` and the update of the row -/
def markCompleted (env : Env Id S K) (store : List (Document Id S K)) (id : Id) (chunks : ℕ) :
    List (Document Id S K) :=
  store.map fun d =>
    if d.id = id then { d with status := .completed, updatedAt := env.now, chunkCount := chunks } else d

/-- A document that is completed. -/
def complete (env : Env Id S K) (docs : List (Entry S)) (s : State Id S K) (p : ℕ × Id × ℕ) : State Id S K :=
  { s with
    store := markCompleted env s.store p.2.1 p.2.2
    batch := record docs s.batch (p.1, .processed p.2.1 p.2.2)
    ids := s.ids ++ [(p.1, p.2.1)] }

/-- The failed documents and those without chunks. -/
def failedStep (env : Env Id S K) (docs : List (Entry S)) (states : ℕ → DocState Id) (s : State Id S K)
    (idx : ℕ) : State Id S K :=
  match states idx with
  | .failed document error => { s with batch := record docs s.batch (idx, .failed document error) }
  | .created document 0 => complete env docs s (idx, document, 0)
  | .created _ (_ + 1) => s

/-- `ok_states`: index, document and number of chunks. -/
def okStates (states : ℕ → DocState Id) (active : List ℕ) : List (ℕ × Id × ℕ) :=
  active.filterMap fun idx =>
    match states idx with
    | .created document (n + 1) => some (idx, document, n + 1)
    | _ => none

/-! ## Windows -/

/-- The windows that are complete, the open one and its number of chunks. -/
def windowStep (max : ℕ) (w : List (List (ℕ × Id × ℕ)) × List (ℕ × Id × ℕ) × ℕ) (p : ℕ × Id × ℕ) :
    List (List (ℕ × Id × ℕ)) × List (ℕ × Id × ℕ) × ℕ :=
  if w.2.1 ≠ [] ∧ max < w.2.2 + p.2.2 then (w.1 ++ [w.2.1], [p], p.2.2)
  else (w.1, w.2.1 ++ [p], w.2.2 + p.2.2)

def buildWindows (maxChunksInFlight : Option ℕ) (oks : List (ℕ × Id × ℕ)) : List (List (ℕ × Id × ℕ)) :=
  match maxChunksInFlight with
  | none => [oks]
  | some max =>
      let w := oks.foldl (windowStep max) ([], [], 0)
      if w.2.1 ≠ [] then w.1 ++ [w.2.1] else w.1

/-! ## The batch -/

/-- `_resolve_intra_batch_dups`, for one of them -/
def resolveDup (s : State Id S K) (perDocument : List (Option (DocRecord Id))) (p : ℕ × IdentityKey S K) :
    List (Option (DocRecord Id)) :=
  match s.winners.lookup p.2 with
  | some winner => perDocument.modify p.1 (Option.map fun r => { r with documentId := s.ids.lookup winner })
  | none => perDocument

structure BatchResult (Id S K : Type) where
  total : ℕ
  processed : ℕ
  skipped : ℕ
  failed : ℕ
  chunks : ℕ
  progress : List (ℕ × ℕ)
  perDocument : List (DocRecord Id)
  store : List (Document Id S K)

/-- `_resolve_intra_batch_dups` and `_finalize_per_document` -/
def finish (docs : List (Entry S)) (s : State Id S K) : BatchResult Id S K where
  total := docs.length
  processed := s.batch.processed
  skipped := s.batch.skipped
  failed := s.batch.failed
  chunks := s.batch.chunks
  progress := s.batch.progress
  perDocument := (s.dups.foldl (resolveDup s) s.batch.perDocument).zipIdx.map fun p =>
    p.1.getD ⟨none, sourceOf docs p.2, 0, false, none⟩
  store := s.store

/-- Stage 1 and the windows. -/
def processActive (env : Env Id S K) (docs : List (Entry S)) (s : State Id S K) : State Id S K :=
  let created := createAll env docs s
  let recorded := s.active.foldl (failedStep env docs created.2) { s with store := created.1 }
  let oks := okStates created.2 s.active
  if oks = [] then recorded
  else (buildWindows env.maxChunksInFlight oks).foldl (List.foldl (complete env docs)) recorded

/-- The state after the last stage that runs. -/
def runStages (env : Env Id S K) (docs : List (Entry S)) (store : List (Document Id S K)) : State Id S K :=
  let s := skipDuplicates env docs (replaceStored env docs (start docs store))
  if s.active = [] then s else processActive env docs s

def rememberBatch (env : Env Id S K) (docs : List (Entry S)) (store : List (Document Id S K)) :
    BatchResult Id S K := finish docs (runStages env docs store)

omit [DecidableEq Id] [DecidableEq S] [DecidableEq K]

/-! ## The last input of an id -/

theorem extIdToIdx_append (docs : List (Entry S)) (e : Entry S) :
    extIdToIdx (docs ++ [e]) = match e.externalId with
      | some y => if isBlank y then extIdToIdx docs else (extIdToIdx docs).set y docs.length
      | none => extIdToIdx docs := by
  simp only [extIdToIdx, List.zipIdx_append, List.foldl_append, List.zipIdx_singleton, List.foldl_cons,
    List.foldl_nil, Nat.zero_add]

/-- **The pre-pass** takes the last input of each `external_id`. -/
theorem get?_extIdToIdx {docs : List (Entry S)} {x : String} {i : ℕ} :
    (extIdToIdx docs).get? x = some i ↔ isBlank x = false ∧
      (docs[i]?).bind Entry.externalId = some x ∧
      ∀ j, i < j → (docs[j]?).bind Entry.externalId ≠ some x := by
  induction docs using List.reverseRecOn with
  | nil => simp [extIdToIdx]
  | append_singleton docs e ih =>
      have hnew : ((docs ++ [e])[docs.length]?).bind Entry.externalId = e.externalId := by
        rw [List.getElem?_concat_length, Option.bind_some]
      have hpast : ∀ j : ℕ, docs.length < j → ((docs ++ [e])[j]?).bind Entry.externalId = none := by
        intro j hj
        rw [List.getElem?_eq_none (by rw [List.length_append, List.length_singleton]; omega), Option.bind_none]
      have hold : ∀ j : ℕ, j < docs.length →
          ((docs ++ [e])[j]?).bind Entry.externalId = (docs[j]?).bind Entry.externalId := by
        intro j hj
        rw [List.getElem?_append_left hj]
      have hnone : ∀ j : ℕ, docs.length ≤ j → (docs[j]?).bind Entry.externalId = none := by
        intro j hj
        rw [List.getElem?_eq_none hj, Option.bind_none]
      -- an input that the new one does not displace
      have hkeep : e.externalId ≠ some x →
          (((docs[i]?).bind Entry.externalId = some x ∧
            ∀ j, i < j → (docs[j]?).bind Entry.externalId ≠ some x) ↔
          (((docs ++ [e])[i]?).bind Entry.externalId = some x ∧
            ∀ j, i < j → ((docs ++ [e])[j]?).bind Entry.externalId ≠ some x)) := by
        intro hne
        have hsame : ∀ j : ℕ, ((docs ++ [e])[j]?).bind Entry.externalId = some x ↔
            (docs[j]?).bind Entry.externalId = some x := by
          intro j
          rcases lt_trichotomy j docs.length with hj | rfl | hj
          · rw [hold j hj]
          · rw [hnew, hnone _ le_rfl]
            exact iff_of_false hne (by simp)
          · rw [hpast j hj, hnone j hj.le]
        simp only [ne_eq, hsame]
      rw [extIdToIdx_append]
      cases he : e.externalId with
      | none =>
          rw [he] at hkeep
          exact ih.trans (and_congr_right fun _ => hkeep (by simp))
      | some y =>
          rw [he] at hkeep hnew
          by_cases hblank : isBlank y = true
          · simp only [hblank, if_true]
            by_cases hxy : x = y
            · subst hxy
              rw [ih, hblank]
              exact iff_of_false (fun h => by cases h.1) fun h => by cases h.1
            · exact ih.trans (and_congr_right fun _ => hkeep fun h => hxy (Option.some.inj h).symm)
          · simp only [hblank]
            rw [if_neg Bool.false_ne_true, OrderedDict.get?_set]
            by_cases hxy : x = y
            · subst hxy
              rw [if_pos rfl, Option.some_inj]
              constructor
              · rintro rfl
                refine ⟨Bool.eq_false_iff.mpr hblank, hnew, fun j hj => ?_⟩
                rw [hpast j hj]
                simp
              · rintro ⟨-, hi, hlast⟩
                rcases lt_trichotomy i docs.length with hlt | rfl | hlt
                · exact absurd hnew (hlast _ hlt)
                · rfl
                · rw [hpast i hlt] at hi
                  cases hi
            · rw [if_neg hxy]
              exact ih.trans (and_congr_right fun _ => hkeep fun h => hxy (Option.some.inj h).symm)

/-! ## The windows -/

theorem flatten_windowStep {max : ℕ} {oks : List (ℕ × Id × ℕ)}
    {w : List (List (ℕ × Id × ℕ)) × List (ℕ × Id × ℕ) × ℕ} :
    (oks.foldl (windowStep max) w).1.flatten ++ (oks.foldl (windowStep max) w).2.1 =
      w.1.flatten ++ w.2.1 ++ oks := by
  induction oks generalizing w with
  | nil => simp
  | cons p oks ih =>
      rw [List.foldl_cons, ih, windowStep]
      split
      · simp
      · simp

/-- **The windows** hold every document once, in order. -/
theorem flatten_buildWindows (maxChunksInFlight : Option ℕ) (oks : List (ℕ × Id × ℕ)) :
    (buildWindows maxChunksInFlight oks).flatten = oks := by
  cases maxChunksInFlight with
  | none => simp [buildWindows]
  | some max =>
      have h := @flatten_windowStep Id max oks ([], [], 0)
      simp only [buildWindows]
      split
      · simpa using h
      · rename_i hnil
        rw [not_not.mp hnil] at h
        simpa using h

/-! ## Tallies -/

/-- What an entry counts for: a skipped one, an error, its chunks. -/
def countOf (f : DocRecord Id → ℕ) (entries : List (Option (DocRecord Id))) : ℕ :=
  (entries.map fun r => (r.map f).getD 0).sum

theorem countOf_set {f : DocRecord Id → ℕ} {entries : List (Option (DocRecord Id))} {i : ℕ}
    (h : entries[i]? = some none) (r : DocRecord Id) :
    countOf f (entries.set i (some r)) = countOf f entries + f r := by
  induction entries generalizing i with
  | nil => cases h
  | cons x entries ih =>
      cases i with
      | zero =>
          cases h
          simp [countOf, Nat.add_comm]
      | succ i =>
          have hrest := ih (by simpa using h)
          simp only [countOf, List.set_cons_succ, List.map_cons, List.sum_cons] at hrest ⊢
          omega

def skippedOf (r : DocRecord Id) : ℕ := if r.skipped then 1 else 0

def errorOf (r : DocRecord Id) : ℕ := if r.error.isSome then 1 else 0

/-- The batch after the inputs `done`, each recorded once. -/
structure Tally (docs : List (Entry S)) (recs : List (ℕ × Outcome Id)) (b : Batch Id) : Prop where
  slots : b.perDocument.length = docs.length
  open_iff : ∀ i, b.perDocument[i]? = some none ↔ i < docs.length ∧ i ∉ recs.map Prod.fst
  entries : ∀ p ∈ recs, b.perDocument[p.1]? = some (some (entryOf docs p.1 p.2))
  total : b.processed + b.skipped + b.failed = recs.length
  skipped : b.skipped = countOf skippedOf b.perDocument
  failed : b.failed = countOf errorOf b.perDocument
  chunks : b.chunks = countOf DocRecord.chunks b.perDocument
  progress : b.progress = (List.range recs.length).map fun i => (i + 1, docs.length)

theorem tally_start (docs : List (Entry S)) (store : List (Document Id S K)) :
    Tally docs [] (start docs store).batch := by
  have hzero : ∀ f : DocRecord Id → ℕ, countOf f (docs.map fun _ => none) = 0 := by
    intro f
    unfold countOf
    induction docs with
    | nil => rfl
    | cons e docs ih => simp
  constructor
  · exact List.length_map _
  · intro i
    simp [start, List.getElem?_replicate]
  · simp
  · rfl
  · exact (hzero _).symm
  · exact (hzero _).symm
  · exact (hzero _).symm
  · rfl

theorem Tally.record {docs : List (Entry S)} {recs : List (ℕ × Outcome Id)} {b : Batch Id}
    (h : Tally docs recs b) {p : ℕ × Outcome Id} (hlt : p.1 < docs.length)
    (hnew : p.1 ∉ recs.map Prod.fst) : Tally docs (recs ++ [p]) (record docs b p) := by
  have hopen := (h.open_iff p.1).mpr ⟨hlt, hnew⟩
  constructor
  · exact (List.length_set).trans h.slots
  · intro i
    show (b.perDocument.set p.1 (some (entryOf docs p.1 p.2)))[i]? = some none ↔ _
    rw [List.getElem?_set, List.map_append, List.mem_append, not_or, ← and_assoc, ← h.open_iff]
    by_cases hi : p.1 = i
    · rw [if_pos hi, if_pos (by rw [h.slots]; exact hlt)]
      exact iff_of_false nofun fun hand => hand.2 (by simp [hi])
    · rw [if_neg hi]
      exact (and_iff_left (by simpa using fun heq => hi heq.symm)).symm
  · intro q hq
    show (b.perDocument.set p.1 (some (entryOf docs p.1 p.2)))[q.1]? = _
    rw [List.getElem?_set]
    rcases List.mem_append.mp hq with hq | hq
    · have hne : p.1 ≠ q.1 := by
        intro heq
        rw [heq] at hnew
        exact hnew (List.mem_map_of_mem hq)
      rw [if_neg hne]
      exact h.entries q hq
    · rw [List.mem_singleton.mp hq, if_pos rfl, if_pos (by rw [h.slots]; exact hlt)]
  · have htotal := h.total
    rw [List.length_append, List.length_singleton]
    rcases p with ⟨i, o⟩
    cases o with
    | processed id n =>
        show b.processed + 1 + (b.skipped + 0) + (b.failed + 0) = _
        omega
    | skipped id =>
        show b.processed + 0 + (b.skipped + 1) + (b.failed + 0) = _
        omega
    | failed id error =>
        show b.processed + 0 + (b.skipped + 0) + (b.failed + 1) = _
        omega
  · show b.skipped + _ = countOf skippedOf (b.perDocument.set p.1 (some (entryOf docs p.1 p.2)))
    rw [countOf_set hopen, ← h.skipped]
    rcases p with ⟨i, o⟩
    cases o <;> rfl
  · show b.failed + _ = countOf errorOf (b.perDocument.set p.1 (some (entryOf docs p.1 p.2)))
    rw [countOf_set hopen, ← h.failed]
    rcases p with ⟨i, o⟩
    cases o <;> rfl
  · show b.chunks + _ = countOf DocRecord.chunks (b.perDocument.set p.1 (some (entryOf docs p.1 p.2)))
    rw [countOf_set hopen, ← h.chunks]
    rcases p with ⟨i, o⟩
    cases o <;> rfl
  · show b.progress ++ [(b.progress.length + 1, docs.length)] = _
    rw [h.progress, List.length_map, List.length_range, List.length_append, List.length_singleton,
      List.range_succ, List.map_append]
    rfl

/-- **The counters** of a list of records, of different inputs. -/
theorem tally_foldl {docs : List (Entry S)} {store : List (Document Id S K)} {recs : List (ℕ × Outcome Id)}
    (hlt : ∀ p ∈ recs, p.1 < docs.length) (hnodup : (recs.map Prod.fst).Nodup) :
    Tally docs recs (recs.foldl (record docs) (start docs store).batch) := by
  induction recs using List.reverseRecOn with
  | nil => exact tally_start docs store
  | append_singleton recs p ih =>
      rw [List.map_append, List.nodup_append] at hnodup
      rw [List.foldl_append]
      refine (ih (fun q hq => hlt q (List.mem_append_left _ hq)) hnodup.1).record ?_ ?_
      · exact hlt p (List.mem_append_right _ List.mem_cons_self)
      · intro hp
        exact hnodup.2.2 p.1 hp p.1 (by simp) rfl

end RememberBatch

end Khora
