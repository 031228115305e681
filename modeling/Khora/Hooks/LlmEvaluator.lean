import Khora.Lib.OrderedDict
import Khora.Lib.Runs
import Khora.Lib.Slots
import Mathlib.Data.Int.Notation

/-!
# The micro-batches of the filter evaluator

`LLMFilterEvaluator.evaluate` queues an evaluation and waits for its future.  A full queue goes
to a batch task of its own and the flush timer is cancelled; else a timer task takes the queue
when its delay is over.  A batch is asked bucket by bucket, and whatever goes wrong answers
`True`.

A step is what a task does between two awaits.  No section under the queue lock awaits, so a
section is part of one step and the lock is free between steps.

* `coalesce_covers`, `buckets_covers` — no item is lost in bucketing or coalescing.
* `evaluations_answered` — in every run each unresolved item is in the queue or in one batch of
  one live task, a non-empty queue has a timer, a future is settled once, and a batch task that
  finished uncancelled has settled its futures.
-/

namespace Khora

variable {B H : Type}

/-! ## Items and futures -/

/-- A `_PendingEvaluation`: its future, the namespace and filter that it is bucketed by, and the
hash of its event summary. -/
structure PendingEvaluation (B H : Type) where
  future : ℕ
  bucket : B
  summary : H
deriving DecidableEq, Repr

/-- How a future ends: with an answer, or with the caller that awaits it. -/
inductive FutureEnd where
  | result (decision : Bool)
  | cancelled
deriving DecidableEq, Repr

/-- The futures that have ended, in the order in which they did. -/
abbrev FutureLog := List (ℕ × FutureEnd)

/-- `future.done()` -/
def FutureLog.Done (settled : FutureLog) (future : ℕ) : Prop := future ∈ settled.map Prod.fst

instance (settled : FutureLog) (future : ℕ) : Decidable (settled.Done future) :=
  inferInstanceAs (Decidable (future ∈ settled.map Prod.fst))

/-- `if not p.future.done(): p.future.set_result(decision)` -/
def setResult (decision : Bool) (settled : FutureLog) (p : PendingEvaluation B H) : FutureLog :=
  if settled.Done p.future then settled else settled ++ [(p.future, .result decision)]

/-- The loop of `setResult` over some items. -/
def setResults (decision : Bool) (settled : FutureLog) (items : List (PendingEvaluation B H)) : FutureLog :=
  items.foldl (setResult decision) settled

/-! ## One bucket -/

/-- The buckets of `_run_batch`, in the order of their first items. -/
def buckets [DecidableEq B] (pending : List (PendingEvaluation B H)) : OrderedDict B (List (PendingEvaluation B H)) :=
  pending.foldl (fun d p => d.set p.bucket ((d.get? p.bucket).getD [] ++ [p])) .empty

/-- One item of the coalescing loop of `_evaluate_bucket`. -/
def coalesceStep [DecidableEq H] (c : List (PendingEvaluation B H) × OrderedDict H (List (PendingEvaluation B H)))
    (p : PendingEvaluation B H) :
    List (PendingEvaluation B H) × OrderedDict H (List (PendingEvaluation B H)) :=
  match c.2.get? p.summary with
  | none => (c.1 ++ [p], c.2.set p.summary [p])
  | some ps => (c.1, c.2.set p.summary (ps ++ [p]))

/-- The representatives of a bucket and, by hash, the items each of them stands for. -/
def coalesce [DecidableEq H] (items : List (PendingEvaluation B H)) :
    List (PendingEvaluation B H) × OrderedDict H (List (PendingEvaluation B H)) :=
  items.foldl coalesceStep ([], .empty)

/-- What the reply has for an index: nothing, an entry whose confidence does not parse, or a
decision. -/
inductive Verdict where
  | missing
  | malformed
  | decided (decision : Bool)
deriving DecidableEq, Repr

/-- The loop over the representatives; `true` says that it raised. -/
def fanOut [DecidableEq H] (groups : OrderedDict H (List (PendingEvaluation B H))) (reply : ℕ → Verdict) :
    ℕ → FutureLog → List (PendingEvaluation B H) → FutureLog × Bool
  | _, settled, [] => (settled, false)
  | idx, settled, rep :: reps =>
      match groups.get? rep.summary with
      | none => (settled, true)
      | some duplicates =>
          match reply idx with
          | .missing => fanOut groups reply (idx + 1) (setResults true settled duplicates) reps
          | .malformed => (settled, true)
          | .decided d => fanOut groups reply (idx + 1) (setResults d settled duplicates) reps

/-! ## Tasks -/

/-- Where a task awaits. -/
inductive TaskPhase (B H : Type) where
  /-- a timer that has not begun or is in its delay -/
  | asleep
  /-- a timer whose delay is over and that has not been resumed -/
  | awake
  /-- a timer that waits for the queue lock -/
  | locking
  /-- a batch task that has not begun -/
  | starting
  /-- the call for a bucket is out; the other buckets are still to come -/
  | calling (items : List (PendingEvaluation B H)) (rest : List (List (PendingEvaluation B H)))
  | finished
deriving DecidableEq, Repr

/-- `task.done()` -/
def TaskPhase.done : TaskPhase B H → Bool
  | .finished => true
  | _ => false

/-- The task is a flush task that has not taken the queue. -/
def TaskPhase.waits : TaskPhase B H → Bool
  | .asleep | .awake | .locking => true
  | _ => false

/-- A task, the batch it has taken, and whether `cancel()` was called on it. -/
structure EvaluatorTask (B H : Type) where
  phase : TaskPhase B H
  pending : List (PendingEvaluation B H) := []
  cancelled : Bool := false
deriving DecidableEq, Repr

/-- What `_evaluate_bucket` does before its call: it raises, the budget is exceeded, or the call
goes out. -/
inductive BucketGate where
  | raises
  | refused
  | granted
deriving DecidableEq, Repr

/-- The reply to a call; it may have timed out or raised. -/
inductive LlmReply where
  | failed
  | results (reply : ℕ → Verdict)

section Batch

variable (gate : List (PendingEvaluation B H) → BucketGate) (pending : List (PendingEvaluation B H))

/-- `_run_batch` from the start of a bucket to its next await. -/
def runBuckets : FutureLog → List (List (PendingEvaluation B H)) → FutureLog × TaskPhase B H
  | settled, [] => (settled, .finished)
  | settled, items :: rest =>
      match gate items with
      | .raises => (setResults true settled pending, .finished)
      | .refused => runBuckets (setResults true settled items) rest
      | .granted => (settled, .calling items rest)

/-- `_run_batch` to its first await. -/
def runBatch [DecidableEq B] (settled : FutureLog) : FutureLog × TaskPhase B H :=
  runBuckets gate pending settled ((buckets pending).items.map Prod.snd)

/-- `_run_batch` from the reply to a call to its next await. -/
def resumeBatch [DecidableEq H] (settled : FutureLog) (items : List (PendingEvaluation B H))
    (rest : List (List (PendingEvaluation B H))) : LlmReply → FutureLog × TaskPhase B H
  | .failed => runBuckets gate pending (setResults true settled items) rest
  | .results reply =>
      let c := coalesce items
      match fanOut c.2 reply 0 settled c.1 with
      | (settled', true) => (setResults true settled' pending, .finished)
      | (settled', false) => runBuckets gate pending settled' rest

end Batch

/-! ## The evaluator -/

/-- The queue, the flush task it knows of, all tasks, and the futures. -/
structure LlmFilterEvaluator (B H : Type) where
  queue : List (PendingEvaluation B H)
  flushTask : Option ℕ
  tasks : List (EvaluatorTask B H)
  created : ℕ
  settled : FutureLog
deriving DecidableEq, Repr

namespace LlmFilterEvaluator

def start : LlmFilterEvaluator B H := ⟨[], none, [], 0, []⟩

/-- `self._flush_task and not self._flush_task.done()` -/
def flushing (s : LlmFilterEvaluator B H) : Bool :=
  match s.flushTask with
  | none => false
  | some t => (s.tasks[t]?.map fun task => !task.phase.done).getD false

/-- `self._flush_task.cancel()`, and the task is forgotten. -/
def cancelFlush (s : LlmFilterEvaluator B H) : LlmFilterEvaluator B H :=
  match s.flushTask with
  | none => s
  | some t => { s with tasks := s.tasks.modify t fun task => { task with cancelled := true }, flushTask := none }

/-- `evaluate`, from the cache miss to `await future`. -/
def evaluate (batchSize : ℤ) (s : LlmFilterEvaluator B H) (bucket : B) (summary : H) :
    LlmFilterEvaluator B H :=
  let queue := s.queue ++ [⟨s.created, bucket, summary⟩]
  if batchSize ≤ queue.length then
    let s' := if s.flushing then s.cancelFlush else s
    { s' with queue := [], tasks := s'.tasks ++ [{ phase := .starting, pending := queue }], created := s.created + 1 }
  else if s.flushing then { s with queue := queue, created := s.created + 1 }
  else
    { s with
      queue := queue
      flushTask := some s.tasks.length
      tasks := s.tasks ++ [{ phase := .asleep }]
      created := s.created + 1 }

/-- The task at `t` now awaits at `phase`. -/
def setPhase (s : LlmFilterEvaluator B H) (t : ℕ) (task : EvaluatorTask B H) (phase : TaskPhase B H) :
    LlmFilterEvaluator B H :=
  { s with tasks := s.tasks.set t { task with phase := phase } }

/-- `_flush_after_delay` from the queue lock to its next await. -/
def flush [DecidableEq B] (s : LlmFilterEvaluator B H) (t : ℕ) (task : EvaluatorTask B H)
    (gate : List (PendingEvaluation B H) → BucketGate) : LlmFilterEvaluator B H :=
  match s.queue with
  | [] => s.setPhase t task .finished
  | p :: ps =>
      let (settled, phase) := runBatch gate (p :: ps) s.settled
      { s with
        queue := []
        flushTask := none
        tasks := s.tasks.set t { task with phase := phase, pending := p :: ps }
        settled := settled }

end LlmFilterEvaluator

/-- What may happen next. -/
inductive EvaluatorAction (B H : Type) where
  /-- a call of `evaluate`, which the cache may answer -/
  | evaluate (cached : Bool) (bucket : B) (summary : H)
  /-- the caller that awaits a future is cancelled -/
  | abandon (future : ℕ)
  /-- the delay of a timer is over -/
  | expire (t : ℕ)
  /-- a timer finds the lock taken -/
  | wait (t : ℕ)
  /-- a timer takes the lock -/
  | flush (t : ℕ) (gate : List (PendingEvaluation B H) → BucketGate)
  /-- `CancelledError` is thrown into a task -/
  | throw (t : ℕ)
  /-- a batch task begins -/
  | begin (t : ℕ) (gate : List (PendingEvaluation B H) → BucketGate)
  /-- the call of a bucket returns -/
  | reply (t : ℕ) (reply : LlmReply) (gate : List (PendingEvaluation B H) → BucketGate)

namespace LlmFilterEvaluator

/-- What a task does when it is resumed.  No handler below a batch catches `CancelledError`, and
that of the timer returns, so a cancelled task ends either way. -/
def resume [DecidableEq B] [DecidableEq H] (s : LlmFilterEvaluator B H) (t : ℕ) (task : EvaluatorTask B H) :
    EvaluatorAction B H → LlmFilterEvaluator B H
  | .expire _ =>
      match task.phase with
      | .asleep => s.setPhase t task .awake
      | _ => s
  | .wait _ =>
      match task.phase, task.cancelled with
      | .awake, false => s.setPhase t task .locking
      | _, _ => s
  | .flush _ gate =>
      match task.phase, task.cancelled with
      | .awake, false => s.flush t task gate
      | .locking, false => s.flush t task gate
      | _, _ => s
  | .throw _ => if task.cancelled then s.setPhase t task .finished else s
  | .begin _ gate =>
      match task.phase, task.cancelled with
      | .starting, false =>
          let (settled, phase) := runBatch gate task.pending s.settled
          { s.setPhase t task phase with settled := settled }
      | _, _ => s
  | .reply _ reply gate =>
      match task.phase, task.cancelled with
      | .calling items rest, false =>
          let (settled, phase) := resumeBatch gate task.pending s.settled items rest reply
          { s.setPhase t task phase with settled := settled }
      | _, _ => s
  | .evaluate .. => s
  | .abandon _ => s

/-- The step at `t`, where there is such a task. -/
def atTask [DecidableEq B] [DecidableEq H] (s : LlmFilterEvaluator B H) (t : ℕ) (a : EvaluatorAction B H) :
    LlmFilterEvaluator B H :=
  match s.tasks[t]? with
  | none => s
  | some task => s.resume t task a

/-- One step of the event loop; a step that is not enabled changes nothing. -/
def step [DecidableEq B] [DecidableEq H] (batchSize : ℤ) (s : LlmFilterEvaluator B H) (a : EvaluatorAction B H) :
    LlmFilterEvaluator B H :=
  match a with
  | .evaluate cached bucket summary => if cached then s else s.evaluate batchSize bucket summary
  | .abandon future =>
      if future < s.created ∧ ¬s.settled.Done future then
        { s with settled := s.settled ++ [(future, .cancelled)] }
      else s
  | .expire t => s.atTask t a
  | .wait t => s.atTask t a
  | .flush t _ => s.atTask t a
  | .throw t => s.atTask t a
  | .begin t _ => s.atTask t a
  | .reply t _ _ => s.atTask t a

end LlmFilterEvaluator

/-! ## Settling futures -/

/-- More futures are settled, and none twice. -/
structure FutureLog.Extends (old new : FutureLog) : Prop where
  done : ∀ i, old.Done i → new.Done i
  once : (old.map Prod.fst).Nodup → (new.map Prod.fst).Nodup

theorem FutureLog.Extends.refl (settled : FutureLog) : settled.Extends settled := ⟨fun _ h => h, fun h => h⟩

theorem FutureLog.Extends.trans {a b c : FutureLog} (hab : a.Extends b) (hbc : b.Extends c) : a.Extends c :=
  ⟨fun i h => hbc.done i (hab.done i h), fun h => hbc.once (hab.once h)⟩

/-- A future that is not done ends. -/
theorem FutureLog.extends_append {settled : FutureLog} {i : ℕ} (h : ¬settled.Done i) (e : FutureEnd) :
    settled.Extends (settled ++ [(i, e)]) := by
  refine ⟨fun j hj => ?_, fun hn => ?_⟩
  · show j ∈ (settled ++ [(i, e)]).map Prod.fst
    rw [List.map_append]
    exact List.mem_append_left _ hj
  · rw [List.map_append]
    refine List.nodup_append.mpr ⟨hn, List.nodup_singleton _, ?_⟩
    rintro a ha b hb rfl
    rw [List.mem_singleton.mp hb] at ha
    exact h ha

section SetResults

variable {settled : FutureLog} {d : Bool}

theorem setResult_extends (p : PendingEvaluation B H) : settled.Extends (setResult d settled p) := by
  unfold setResult
  split
  next => exact .refl _
  next h => exact FutureLog.extends_append h _

theorem setResult_done (p : PendingEvaluation B H) : (setResult d settled p).Done p.future := by
  unfold setResult
  split
  next h => exact h
  next =>
    show p.future ∈ (settled ++ [(p.future, FutureEnd.result d)]).map Prod.fst
    rw [List.map_append]
    exact List.mem_append_right _ List.mem_cons_self

theorem setResults_extends (items : List (PendingEvaluation B H)) :
    ∀ settled : FutureLog, settled.Extends (setResults d settled items) := by
  induction items with
  | nil => exact fun _ => .refl _
  | cons p ps ih => exact fun settled => (setResult_extends p).trans (ih _)

/-- The loop answers each of its items. -/
theorem setResults_done (items : List (PendingEvaluation B H)) :
    ∀ settled : FutureLog, ∀ p ∈ items, (setResults d settled items).Done p.future := by
  induction items with
  | nil => exact fun _ _ h => by cases h
  | cons q qs ih =>
      intro settled p hp
      rcases List.mem_cons.mp hp with rfl | hp
      · exact (setResults_extends qs _).done _ (setResult_done p)
      · exact ih _ p hp

end SetResults

/-! ## Bucketing and coalescing -/

/-- One step of the bucketing loop keeps what is there and files its item. -/
theorem get?_file [DecidableEq B] (d : OrderedDict B (List (PendingEvaluation B H))) (p q : PendingEvaluation B H)
    (h : q = p ∨ ∃ ps, d.get? q.bucket = some ps ∧ q ∈ ps) :
    ∃ ps, (d.set p.bucket ((d.get? p.bucket).getD [] ++ [p])).get? q.bucket = some ps ∧ q ∈ ps := by
  rw [OrderedDict.get?_set]
  rcases h with rfl | ⟨ps, hget, hmem⟩
  · exact ⟨_, if_pos rfl, List.mem_append_right _ List.mem_cons_self⟩
  · by_cases hb : q.bucket = p.bucket
    · refine ⟨_, if_pos hb, ?_⟩
      rw [← hb, hget]
      exact List.mem_append_left _ hmem
    · exact ⟨ps, (if_neg hb).trans hget, hmem⟩

/-- **Every item of a batch is in a bucket.** -/
theorem buckets_covers [DecidableEq B] (pending : List (PendingEvaluation B H)) :
    ∀ p ∈ pending, ∃ items ∈ (buckets pending).items.map Prod.snd, p ∈ items := by
  have hfold : ∀ (ps : List (PendingEvaluation B H)) (d : OrderedDict B (List (PendingEvaluation B H))) q,
      (q ∈ ps ∨ ∃ items, d.get? q.bucket = some items ∧ q ∈ items) →
      ∃ items, (ps.foldl (fun d p => d.set p.bucket ((d.get? p.bucket).getD [] ++ [p])) d).get? q.bucket
        = some items ∧ q ∈ items := by
    intro ps
    induction ps with
    | nil => exact fun d q h => h.resolve_left List.not_mem_nil
    | cons p ps ih =>
        intro d q h
        apply ih
        rcases h with h | h
        · rcases List.mem_cons.mp h with rfl | h
          · exact .inr (get?_file d q q (.inl rfl))
          · exact .inl h
        · exact .inr (get?_file d p q (.inr h))
  intro p hp
  obtain ⟨items, hget, hmem⟩ := hfold pending .empty p (.inl hp)
  exact ⟨items, List.mem_map.mpr ⟨_, OrderedDict.get?_eq_some_iff.mp hget, rfl⟩, hmem⟩

/-- An item is filed under the hash of a representative. -/
def Represented [DecidableEq H] (c : List (PendingEvaluation B H) × OrderedDict H (List (PendingEvaluation B H)))
    (p : PendingEvaluation B H) : Prop :=
  (∃ rep ∈ c.1, rep.summary = p.summary) ∧ ∃ ps, c.2.get? p.summary = some ps ∧ p ∈ ps

/-- One step of the coalescing loop, where each hash has a representative. -/
theorem coalesceStep_covers [DecidableEq H]
    (c : List (PendingEvaluation B H) × OrderedDict H (List (PendingEvaluation B H)))
    (p : PendingEvaluation B H) (hreps : ∀ h ps, c.2.get? h = some ps → ∃ rep ∈ c.1, rep.summary = h) :
    (∀ h ps, (coalesceStep c p).2.get? h = some ps → ∃ rep ∈ (coalesceStep c p).1, rep.summary = h) ∧
      ∀ q, q = p ∨ Represented c q → Represented (coalesceStep c p) q := by
  unfold coalesceStep
  cases hget : c.2.get? p.summary with
  | none =>
      constructor
      · intro h ps hps
        rw [OrderedDict.get?_set] at hps
        by_cases hh : h = p.summary
        · exact ⟨p, List.mem_append_right _ List.mem_cons_self, hh.symm⟩
        · rw [if_neg hh] at hps
          obtain ⟨rep, hrep, heq⟩ := hreps h ps hps
          exact ⟨rep, List.mem_append_left _ hrep, heq⟩
      · rintro q (rfl | ⟨⟨rep, hrep, heq⟩, ps, hps, hmem⟩)
        · refine ⟨⟨q, List.mem_append_right _ List.mem_cons_self, rfl⟩, [q], ?_, List.mem_cons_self⟩
          rw [OrderedDict.get?_set, if_pos rfl]
        · have hne : q.summary ≠ p.summary := fun hq => by
            rw [hq, hget] at hps
            cases hps
          refine ⟨⟨rep, List.mem_append_left _ hrep, heq⟩, ps, ?_, hmem⟩
          rw [OrderedDict.get?_set, if_neg hne, hps]
  | some qs =>
      have hkey : ∀ h ps, (c.2.set p.summary (qs ++ [p])).get? h = some ps → ∃ ps', c.2.get? h = some ps' := by
        intro h ps hps
        rw [OrderedDict.get?_set] at hps
        by_cases hh : h = p.summary
        · exact ⟨qs, hh ▸ hget⟩
        · rw [if_neg hh] at hps
          exact ⟨ps, hps⟩
      constructor
      · intro h ps hps
        obtain ⟨ps', hps'⟩ := hkey h ps hps
        exact hreps h ps' hps'
      · rintro q (rfl | ⟨hrep, ps, hps, hmem⟩)
        · refine ⟨hreps _ qs hget, qs ++ [q], ?_, List.mem_append_right _ List.mem_cons_self⟩
          rw [OrderedDict.get?_set, if_pos rfl]
        · refine ⟨hrep, ?_⟩
          rw [OrderedDict.get?_set]
          by_cases hq : q.summary = p.summary
          · rw [hq, hget] at hps
            cases hps
            exact ⟨_, if_pos hq, List.mem_append_left _ hmem⟩
          · exact ⟨ps, (if_neg hq).trans hps, hmem⟩

/-- **Every item of a bucket shares the hash of a representative**, and is found under it. -/
theorem coalesce_covers [DecidableEq H] (items : List (PendingEvaluation B H)) :
    ∀ p ∈ items, Represented (coalesce items) p := by
  have hfold : ∀ (ps : List (PendingEvaluation B H)) c,
      (∀ h qs, c.2.get? h = some qs → ∃ rep ∈ c.1, rep.summary = h) →
      ∀ q, q ∈ ps ∨ Represented c q → Represented (ps.foldl coalesceStep c) q := by
    intro ps
    induction ps with
    | nil => exact fun c _ q h => h.resolve_left List.not_mem_nil
    | cons p ps ih =>
        intro c hreps q h
        obtain ⟨hnext, hkeep⟩ := coalesceStep_covers c p hreps
        apply ih _ hnext
        rcases h with h | h
        · rcases List.mem_cons.mp h with rfl | h
          · exact .inr (hkeep q (.inl rfl))
          · exact .inl h
        · exact .inr (hkeep q (.inr h))
  exact fun p hp => hfold items ([], .empty) (fun h ps hps => by cases hps) p (.inl hp)

/-! ## A batch to its next await -/

theorem fanOut_extends [DecidableEq H] (groups : OrderedDict H (List (PendingEvaluation B H))) (reply : ℕ → Verdict) :
    ∀ (reps : List (PendingEvaluation B H)) (idx : ℕ) (settled : FutureLog),
      settled.Extends (fanOut groups reply idx settled reps).1 := by
  intro reps
  induction reps with
  | nil => exact fun _ _ => .refl _
  | cons rep reps ih =>
      intro idx settled
      unfold fanOut
      cases groups.get? rep.summary with
      | none => exact .refl _
      | some duplicates =>
          cases reply idx with
          | missing => exact (setResults_extends duplicates _).trans (ih _ _)
          | malformed => exact .refl _
          | decided d => exact (setResults_extends duplicates _).trans (ih _ _)

/-- A loop that did not raise has answered what its representatives stand for. -/
theorem fanOut_done [DecidableEq H] (groups : OrderedDict H (List (PendingEvaluation B H))) (reply : ℕ → Verdict) :
    ∀ (reps : List (PendingEvaluation B H)) (idx : ℕ) (settled : FutureLog),
      (fanOut groups reply idx settled reps).2 = false → ∀ rep ∈ reps, ∀ ps,
        groups.get? rep.summary = some ps → ∀ p ∈ ps, (fanOut groups reply idx settled reps).1.Done p.future := by
  intro reps
  induction reps with
  | nil => exact fun _ _ _ _ h => by cases h
  | cons r reps ih =>
      intro idx settled hreturn rep hrep ps hps p hp
      unfold fanOut at hreturn ⊢
      cases hget : groups.get? r.summary with
      | none =>
          rw [hget] at hreturn
          cases hreturn
      | some duplicates =>
          rw [hget] at hreturn
          have hnext : ∀ d, (fanOut groups reply (idx + 1) (setResults d settled duplicates) reps).2 = false →
              (fanOut groups reply (idx + 1) (setResults d settled duplicates) reps).1.Done p.future := by
            intro d hreturn
            rcases List.mem_cons.mp hrep with rfl | hrep
            · rw [hget] at hps
              cases hps
              exact (fanOut_extends groups reply reps _ _).done _ (setResults_done ps _ p hp)
            · exact ih _ _ hreturn rep hrep ps hps p hp
          cases hverdict : reply idx with
          | missing =>
              rw [hverdict] at hreturn
              exact hnext true hreturn
          | malformed =>
              rw [hverdict] at hreturn
              cases hreturn
          | decided d =>
              rw [hverdict] at hreturn
              exact hnext d hreturn

/-- What a task owes: a timer has taken nothing, and what a batch has not answered is still in
front of it. -/
def Owes (settled : FutureLog) (pending : List (PendingEvaluation B H)) : TaskPhase B H → Prop
  | .starting => True
  | .calling items rest =>
      ∀ p ∈ pending, settled.Done p.future ∨ p ∈ items ∨ ∃ later ∈ rest, p ∈ later
  | .finished => ∀ p ∈ pending, settled.Done p.future
  | _ => pending = []

theorem Owes.extends {old new : FutureLog} (h : old.Extends new) {pending : List (PendingEvaluation B H)}
    {phase : TaskPhase B H} (ho : Owes old pending phase) : Owes new pending phase := by
  cases phase with
  | starting => trivial
  | calling items rest => exact fun p hp => (ho p hp).imp_left (h.done _)
  | finished => exact fun p hp => h.done _ (ho p hp)
  | asleep => exact ho
  | awake => exact ho
  | locking => exact ho

/-- A waiting timer has taken nothing. -/
theorem Owes.nil_of_waits {settled : FutureLog} {pending : List (PendingEvaluation B H)} {phase : TaskPhase B H}
    (h : Owes settled pending phase) (hw : phase.waits = true) : pending = [] := by
  cases phase with
  | asleep => exact h
  | awake => exact h
  | locking => exact h
  | starting => cases hw
  | calling items rest => cases hw
  | finished => cases hw

theorem TaskPhase.not_done_of_waits {phase : TaskPhase B H} (h : phase.waits = true) : phase.done = false := by
  cases phase with
  | finished => cases h
  | _ => rfl

section Batch

variable (gate : List (PendingEvaluation B H) → BucketGate) (pending : List (PendingEvaluation B H))

/-- What a stretch of a batch leads to. -/
structure BatchStep (settled : FutureLog) (next : FutureLog × TaskPhase B H) : Prop where
  grows : settled.Extends next.1
  owes : Owes next.1 pending next.2
  waits : next.2.waits = false

theorem runBuckets_step : ∀ (rest : List (List (PendingEvaluation B H))) (settled : FutureLog),
    (∀ p ∈ pending, settled.Done p.future ∨ ∃ later ∈ rest, p ∈ later) →
    BatchStep pending settled (runBuckets gate pending settled rest) := by
  intro rest
  induction rest with
  | nil =>
      intro settled h
      refine ⟨.refl _, fun p hp => (h p hp).resolve_right ?_, rfl⟩
      rintro ⟨later, hlater, -⟩
      cases hlater
  | cons items rest ih =>
      intro settled h
      unfold runBuckets
      cases gate items with
      | raises => exact ⟨setResults_extends pending _, setResults_done pending _, rfl⟩
      | refused =>
          have hnext := ih (setResults true settled items) fun p hp => by
            rcases h p hp with hdone | ⟨later, hlater, hmem⟩
            · exact .inl ((setResults_extends items _).done _ hdone)
            · rcases List.mem_cons.mp hlater with rfl | hlater
              · exact .inl (setResults_done later _ p hmem)
              · exact .inr ⟨later, hlater, hmem⟩
          exact ⟨(setResults_extends items _).trans hnext.grows, hnext.owes, hnext.waits⟩
      | granted =>
          refine ⟨.refl _, fun p hp => ?_, rfl⟩
          rcases h p hp with hdone | ⟨later, hlater, hmem⟩
          · exact .inl hdone
          · rcases List.mem_cons.mp hlater with rfl | hlater
            · exact .inr (.inl hmem)
            · exact .inr (.inr ⟨later, hlater, hmem⟩)

theorem runBatch_step [DecidableEq B] (settled : FutureLog) :
    BatchStep pending settled (runBatch gate pending settled) :=
  runBuckets_step gate pending _ settled fun p hp => .inr (buckets_covers pending p hp)

theorem resumeBatch_step [DecidableEq H] {settled : FutureLog} {items : List (PendingEvaluation B H)}
    {rest : List (List (PendingEvaluation B H))} (h : Owes settled pending (.calling items rest))
    (reply : LlmReply) : BatchStep pending settled (resumeBatch gate pending settled items rest reply) := by
  -- once the items of the bucket are answered, the next bucket starts
  have hrest : ∀ {settled' : FutureLog}, settled.Extends settled' → (∀ p ∈ items, settled'.Done p.future) →
      BatchStep pending settled (runBuckets gate pending settled' rest) := by
    intro settled' hgrows hdone
    have hnext := runBuckets_step gate pending rest settled' fun p hp => by
      rcases h p hp with hold | hmem | hlater
      · exact .inl (hgrows.done _ hold)
      · exact .inl (hdone p hmem)
      · exact .inr hlater
    exact ⟨hgrows.trans hnext.grows, hnext.owes, hnext.waits⟩
  cases reply with
  | failed => exact hrest (setResults_extends items _) (setResults_done items _)
  | results reply =>
      have hgrows := fanOut_extends (coalesce items).2 reply (coalesce items).1 0 settled
      have hdone := fanOut_done (coalesce items).2 reply (coalesce items).1 0 settled
      unfold resumeBatch
      dsimp only
      revert hgrows hdone
      obtain ⟨settled', raised⟩ := fanOut (coalesce items).2 reply 0 settled (coalesce items).1
      intro hgrows hdone
      cases raised with
      | true => exact ⟨hgrows.trans (setResults_extends pending _), setResults_done pending _, rfl⟩
      | false =>
          refine hrest hgrows fun p hp => ?_
          obtain ⟨⟨rep, hrep, heq⟩, ps, hps, hmem⟩ := coalesce_covers items p hp
          exact hdone rfl rep hrep ps (heq ▸ hps) p hmem

end Batch

/-! ## What every step keeps -/

namespace LlmFilterEvaluator

variable {s : LlmFilterEvaluator B H} {t : ℕ} {task : EvaluatorTask B H}

/-- The futures of all items that were ever queued, by where they are. -/
def places (s : LlmFilterEvaluator B H) : List ℕ :=
  (s.queue ++ s.tasks.flatMap EvaluatorTask.pending).map PendingEvaluation.future

/-- What holds at every point of a step.  A task that was cancelled has taken nothing, and the
flush task that the evaluator knows of is neither cancelled nor in a batch. -/
structure Consistent (s : LlmFilterEvaluator B H) : Prop where
  tasks : ∀ task ∈ s.tasks, Owes s.settled task.pending task.phase ∧ (task.cancelled = true → task.pending = [])
  flushTask : ∀ t, s.flushTask = some t → ∃ task, s.tasks[t]? = some task ∧ task.cancelled = false ∧
    (task.phase.waits = true ∨ task.phase.done = true)
  places : s.places.Perm (List.range s.created)
  once : (s.settled.map Prod.fst).Nodup

/-- The invariant between steps: the queue is not left without a timer. -/
structure Sound (s : LlmFilterEvaluator B H) : Prop extends Consistent s where
  queue : s.queue ≠ [] → s.flushing = true

theorem sound_start : (start : LlmFilterEvaluator B H).Sound where
  tasks := fun _ h => by cases h
  flushTask := fun _ h => by cases h
  queue := fun h => absurd rfl h
  places := .refl _
  once := List.nodup_nil

theorem flushing_iff : s.flushing = true ↔
    ∃ t task, s.flushTask = some t ∧ s.tasks[t]? = some task ∧ task.phase.done = false := by
  unfold flushing
  cases s.flushTask with
  | none =>
      refine ⟨fun h => (by cases h), ?_⟩
      rintro ⟨_, _, ht, -⟩
      cases ht
  | some t =>
      dsimp only
      cases hget : s.tasks[t]? with
      | none =>
          refine ⟨fun h => (by cases h), ?_⟩
          rintro ⟨_, task, ht, htask, -⟩
          cases ht
          rw [hget] at htask
          cases htask
      | some task =>
          constructor
          · intro h
            exact ⟨t, task, rfl, hget, Bool.not_eq_eq_eq_not.mp h⟩
          · rintro ⟨_, task', ht, htask, hdone⟩
            cases ht
            rw [hget] at htask
            cases htask
            exact Bool.not_eq_eq_eq_not.mpr hdone

/-- The flush task that is not done waits, uncancelled. -/
theorem Consistent.timer (h : s.Consistent) (hflushing : s.flushing = true) :
    ∃ t task, s.flushTask = some t ∧ s.tasks[t]? = some task ∧ task.cancelled = false ∧
      task.phase.waits = true := by
  obtain ⟨t, task, ht, htask, hdone⟩ := flushing_iff.mp hflushing
  obtain ⟨task', htask', hcancelled, hwaits⟩ := h.flushTask t ht
  rw [htask] at htask'
  cases htask'
  rw [hdone] at hwaits
  exact ⟨t, task, ht, htask, hcancelled, hwaits.resolve_right Bool.false_ne_true⟩

/-- More futures settle; nothing else changes. -/
theorem Sound.settle (h : s.Sound) {settled : FutureLog} (hgrows : s.settled.Extends settled) :
    Sound { s with settled := settled } where
  tasks := fun task htask => ⟨(h.tasks task htask).1.extends hgrows, (h.tasks task htask).2⟩
  flushTask := h.flushTask
  queue := h.queue
  places := h.places
  once := hgrows.once h.once

/-- A task that keeps its items keeps all places. -/
theorem Consistent.places_set (h : s.Consistent) (ht : s.tasks[t]? = some task) {task' : EvaluatorTask B H}
    (hpending : task'.pending = task.pending) :
    ((s.queue ++ (s.tasks.set t task').flatMap EvaluatorTask.pending).map PendingEvaluation.future).Perm
      (List.range s.created) := by
  obtain ⟨pre, post, hsplit, hset, -, -⟩ := Slots.split ht
  have hplaces := h.places
  unfold LlmFilterEvaluator.places at hplaces
  rw [hsplit, List.flatMap_append, List.flatMap_cons] at hplaces
  rwa [hset, List.flatMap_append, List.flatMap_cons, hpending]

/-- A task that keeps its batch moves on. -/
theorem Sound.setPhase (h : s.Sound) (ht : s.tasks[t]? = some task) {phase : TaskPhase B H}
    (howes : Owes s.settled task.pending phase)
    (hflush : s.flushTask = some t → phase.waits = true ∨ phase.done = true ∧ s.queue = []) :
    (s.setPhase t task phase).Sound := by
  have hlt : t < s.tasks.length := (List.getElem?_eq_some_iff.mp ht).1
  refine ⟨⟨?_, ?_, ?_, h.once⟩, ?_⟩
  · intro task' htask'
    rcases List.mem_or_eq_of_mem_set htask' with hmem | rfl
    · exact h.tasks task' hmem
    · exact ⟨howes, (h.tasks task (List.mem_of_getElem? ht)).2⟩
  · intro t' ht'
    obtain ⟨task', htask', hcancelled, hphase⟩ := h.flushTask t' ht'
    by_cases heq : t' = t
    · subst heq
      rw [ht] at htask'
      cases htask'
      refine ⟨_, List.getElem?_set_self hlt, hcancelled, ?_⟩
      exact (hflush ht').imp_right And.left
    · exact ⟨task', (List.getElem?_set_ne (Ne.symm heq)).trans htask', hcancelled, hphase⟩
  · exact h.places_set ht rfl
  · intro hqueue
    obtain ⟨t', task', ht', htask', -, hwaits⟩ := h.timer (h.queue hqueue)
    apply flushing_iff.mpr
    by_cases heq : t' = t
    · subst heq
      refine ⟨t', _, ht', List.getElem?_set_self hlt, ?_⟩
      exact TaskPhase.not_done_of_waits ((hflush ht').resolve_right fun hq => hqueue hq.2)
    · exact ⟨t', task', ht', (List.getElem?_set_ne (Ne.symm heq)).trans htask', TaskPhase.not_done_of_waits hwaits⟩

/-- A task moves on and settles some futures. -/
theorem Sound.work (h : s.Sound) (ht : s.tasks[t]? = some task) {next : FutureLog × TaskPhase B H}
    (hstep : BatchStep task.pending s.settled next) (hflush : s.flushTask ≠ some t) :
    Sound { s.setPhase t task next.2 with settled := next.1 } :=
  (h.settle hstep.grows).setPhase ht hstep.owes fun h => absurd h hflush

/-- The flush task is not a task that has taken its batch. -/
theorem Consistent.flushTask_ne (h : s.Consistent) (ht : s.tasks[t]? = some task)
    (hwaits : task.phase.waits = false) (hdone : task.phase.done = false) : s.flushTask ≠ some t := by
  intro hflush
  obtain ⟨task', htask', -, hphase⟩ := h.flushTask t hflush
  rw [ht] at htask'
  cases htask'
  rw [hwaits, hdone] at hphase
  rcases hphase with hphase | hphase <;> cases hphase

/-- A timer takes the queue. -/
theorem Sound.flush [DecidableEq B] (h : s.Sound) (ht : s.tasks[t]? = some task)
    (hwaits : task.phase.waits = true) (hcancelled : task.cancelled = false)
    (gate : List (PendingEvaluation B H) → BucketGate) : (s.flush t task gate).Sound := by
  have htask := h.tasks task (List.mem_of_getElem? ht)
  have hnil : task.pending = [] := htask.1.nil_of_waits hwaits
  unfold LlmFilterEvaluator.flush
  cases hqueue : s.queue with
  | nil =>
      refine h.setPhase ht (fun p hp => ?_) fun _ => .inr ⟨rfl, hqueue⟩
      rw [hnil] at hp
      cases hp
  | cons p ps =>
      have hstep := runBatch_step gate (p :: ps) s.settled
      obtain ⟨pre, post, hsplit, hset, -, -⟩ := Slots.split ht
      refine ⟨⟨?_, fun t ht => (by cases ht), ?_, hstep.grows.once h.once⟩, fun hq => absurd rfl hq⟩
      · intro task' htask'
        rcases List.mem_or_eq_of_mem_set htask' with hmem | rfl
        · exact ⟨(h.tasks task' hmem).1.extends hstep.grows, (h.tasks task' hmem).2⟩
        · refine ⟨hstep.owes, fun hc => ?_⟩
          rw [hcancelled] at hc
          cases hc
      · have hplaces := h.places
        unfold LlmFilterEvaluator.places at hplaces ⊢
        rw [hqueue, hsplit, List.flatMap_append, List.flatMap_cons, hnil, List.nil_append] at hplaces
        refine List.Perm.trans (List.Perm.map _ ?_) hplaces
        show ([] ++ (s.tasks.set t _).flatMap EvaluatorTask.pending).Perm _
        rw [hset, List.flatMap_append, List.flatMap_cons, List.nil_append]
        exact List.perm_append_comm_assoc _ _ _

/-! ## A call of `evaluate` -/

theorem cancelFlush_frame (s : LlmFilterEvaluator B H) :
    s.cancelFlush.queue = s.queue ∧ s.cancelFlush.created = s.created := by
  unfold cancelFlush
  cases s.flushTask with
  | none => exact ⟨rfl, rfl⟩
  | some t => exact ⟨rfl, rfl⟩

theorem Consistent.cancelFlush (h : s.Consistent) (hflushing : s.flushing = true) :
    s.cancelFlush.Consistent := by
  obtain ⟨t, task, ht, htask, -, hwaits⟩ := h.timer hflushing
  have hok := h.tasks task (List.mem_of_getElem? htask)
  have heq : s.cancelFlush =
      { s with tasks := s.tasks.set t { task with cancelled := true }, flushTask := none } := by
    unfold LlmFilterEvaluator.cancelFlush
    rw [ht]
    dsimp only
    rw [Slots.modify_eq_set htask]
  rw [heq]
  refine ⟨?_, fun t ht => (by cases ht), ?_, h.once⟩
  · intro task' htask'
    rcases List.mem_or_eq_of_mem_set htask' with hmem | rfl
    · exact h.tasks task' hmem
    · exact ⟨hok.1, fun _ => hok.1.nil_of_waits hwaits⟩
  · exact h.places_set htask rfl

/-- One more item, wherever it is put. -/
theorem Consistent.places_insert (h : s.Consistent) {p : PendingEvaluation B H} (hp : p.future = s.created)
    {items : List (PendingEvaluation B H)}
    (hitems : items.Perm (p :: (s.queue ++ s.tasks.flatMap EvaluatorTask.pending))) :
    (items.map PendingEvaluation.future).Perm (List.range (s.created + 1)) := by
  refine (hitems.map _).trans ?_
  rw [List.map_cons, hp, List.range_succ]
  exact (h.places.cons _).trans (List.perm_append_singleton _ _).symm

/-- A new task does not disturb the flush task. -/
theorem Consistent.flushTask_append (h : s.Consistent) (new : EvaluatorTask B H) : ∀ t, s.flushTask = some t →
    ∃ task, (s.tasks ++ [new])[t]? = some task ∧ task.cancelled = false ∧
      (task.phase.waits = true ∨ task.phase.done = true) := by
  intro t ht
  obtain ⟨task, htask, hrest⟩ := h.flushTask t ht
  exact ⟨task, (List.getElem?_append_left (List.getElem?_eq_some_iff.mp htask).1).trans htask, hrest⟩

/-- The full queue goes to a batch task. -/
theorem Consistent.dispatch (h : s.Consistent) {p : PendingEvaluation B H} (hp : p.future = s.created) :
    Sound { s with
      queue := []
      tasks := s.tasks ++ [{ phase := .starting, pending := s.queue ++ [p] }]
      created := s.created + 1 } := by
  refine ⟨⟨?_, h.flushTask_append _, ?_, h.once⟩, fun hq => absurd rfl hq⟩
  · intro task htask
    rcases List.mem_append.mp htask with hmem | hmem
    · exact h.tasks task hmem
    · rw [List.mem_singleton.mp hmem]
      exact ⟨trivial, fun hc => by cases hc⟩
  · refine h.places_insert hp ?_
    show ([] ++ (s.tasks ++ [_]).flatMap EvaluatorTask.pending).Perm _
    rw [List.nil_append, List.flatMap_append, List.flatMap_singleton]
    refine (List.perm_append_comm.trans ?_)
    rw [List.append_assoc]
    exact List.perm_middle

/-- The item waits for a timer that is there. -/
theorem Sound.enqueue (h : s.Sound) (hflushing : s.flushing = true) {p : PendingEvaluation B H}
    (hp : p.future = s.created) : Sound { s with queue := s.queue ++ [p], created := s.created + 1 } := by
  refine ⟨⟨h.tasks, h.flushTask, ?_, h.once⟩, fun _ => hflushing⟩
  refine h.places_insert hp ?_
  show ((s.queue ++ [p]) ++ _).Perm _
  rw [List.append_assoc]
  exact List.perm_middle

/-- The item waits for a timer of its own. -/
theorem Sound.enqueueFirst (h : s.Sound) {p : PendingEvaluation B H} (hp : p.future = s.created) :
    Sound { s with
      queue := s.queue ++ [p]
      flushTask := some s.tasks.length
      tasks := s.tasks ++ [{ phase := .asleep }]
      created := s.created + 1 } := by
  have hnew : (s.tasks ++ [({ phase := .asleep } : EvaluatorTask B H)])[s.tasks.length]?
      = some { phase := .asleep } := List.getElem?_concat_length
  refine ⟨⟨?_, ?_, ?_, h.once⟩, fun _ => flushing_iff.mpr ⟨_, _, rfl, hnew, rfl⟩⟩
  · intro task htask
    rcases List.mem_append.mp htask with hmem | hmem
    · exact h.tasks task hmem
    · rw [List.mem_singleton.mp hmem]
      exact ⟨rfl, fun _ => rfl⟩
  · intro t ht
    cases ht
    exact ⟨_, hnew, rfl, .inl rfl⟩
  · refine h.places_insert hp ?_
    show ((s.queue ++ [p]) ++ (s.tasks ++ [_]).flatMap EvaluatorTask.pending).Perm _
    rw [List.flatMap_append, List.flatMap_singleton, List.append_nil, List.append_assoc]
    exact List.perm_middle

theorem Sound.evaluate (h : s.Sound) (batchSize : ℤ) (bucket : B) (summary : H) :
    (s.evaluate batchSize bucket summary).Sound := by
  unfold LlmFilterEvaluator.evaluate
  dsimp only
  split
  · cases hflushing : s.flushing with
    | true =>
        have hsound := (h.toConsistent.cancelFlush hflushing).dispatch
          (p := ⟨s.created, bucket, summary⟩) s.cancelFlush_frame.2.symm
        rw [s.cancelFlush_frame.1, s.cancelFlush_frame.2] at hsound
        exact hsound
    | false => exact h.toConsistent.dispatch rfl
  · cases hflushing : s.flushing with
    | true => exact h.enqueue hflushing rfl
    | false => exact h.enqueueFirst rfl

/-! ## Every run -/

section Steps

variable [DecidableEq B] [DecidableEq H]

/-- **What a resumed task keeps.** -/
theorem Sound.resume (h : s.Sound) (ht : s.tasks[t]? = some task) (a : EvaluatorAction B H) :
    (s.resume t task a).Sound := by
  have hok := h.tasks task (List.mem_of_getElem? ht)
  unfold LlmFilterEvaluator.resume
  cases a with
  | evaluate cached bucket summary => exact h
  | abandon future => exact h
  | expire _ =>
      cases hphase : task.phase with
      | asleep =>
          rw [hphase] at hok
          exact h.setPhase ht hok.1 fun _ => .inl rfl
      | _ => exact h
  | wait _ =>
      cases hphase : task.phase with
      | awake =>
          rw [hphase] at hok
          cases task.cancelled with
          | true => exact h
          | false => exact h.setPhase ht hok.1 fun _ => .inl rfl
      | _ => exact h
  | flush _ gate =>
      cases hphase : task.phase with
      | awake =>
          cases hcancelled : task.cancelled with
          | true => exact h
          | false => exact h.flush ht (by rw [hphase]; rfl) hcancelled gate
      | locking =>
          cases hcancelled : task.cancelled with
          | true => exact h
          | false => exact h.flush ht (by rw [hphase]; rfl) hcancelled gate
      | _ => exact h
  | throw _ =>
      dsimp only
      split
      next hcancelled =>
        refine h.setPhase ht (fun p hp => ?_) fun hflush => ?_
        · rw [hok.2 hcancelled] at hp
          cases hp
        · -- the flush task is not cancelled
          obtain ⟨task', htask', hnot, -⟩ := h.flushTask t hflush
          rw [ht] at htask'
          cases htask'
          rw [hcancelled] at hnot
          cases hnot
      next => exact h
  | begin _ gate =>
      cases hphase : task.phase with
      | starting =>
          cases task.cancelled with
          | true => exact h
          | false =>
              have hne : s.flushTask ≠ some t :=
                h.toConsistent.flushTask_ne ht (by rw [hphase]; rfl) (by rw [hphase]; rfl)
              exact h.work ht (runBatch_step gate task.pending s.settled) hne
      | _ => exact h
  | reply _ reply gate =>
      cases hphase : task.phase with
      | calling items rest =>
          rw [hphase] at hok
          cases task.cancelled with
          | true => exact h
          | false =>
              have hne : s.flushTask ≠ some t :=
                h.toConsistent.flushTask_ne ht (by rw [hphase]; rfl) (by rw [hphase]; rfl)
              exact h.work ht (resumeBatch_step gate task.pending hok.1 reply) hne
      | _ => exact h

theorem Sound.atTask (h : s.Sound) (t : ℕ) (a : EvaluatorAction B H) : (s.atTask t a).Sound := by
  unfold LlmFilterEvaluator.atTask
  cases ht : s.tasks[t]? with
  | none => exact h
  | some task => exact h.resume ht a

/-- **What every step keeps.** -/
theorem Sound.step (batchSize : ℤ) (s : LlmFilterEvaluator B H) (a : EvaluatorAction B H) (h : s.Sound) :
    (s.step batchSize a).Sound := by
  unfold LlmFilterEvaluator.step
  cases a with
  | evaluate cached bucket summary =>
      cases cached with
      | true => exact h
      | false => exact h.evaluate batchSize bucket summary
  | abandon future =>
      dsimp only
      split
      next hpending => exact h.settle (FutureLog.extends_append hpending.2 _)
      next => exact h
  | expire t => exact h.atTask t _
  | wait t => exact h.atTask t _
  | flush t gate => exact h.atTask t _
  | throw t => exact h.atTask t _
  | begin t gate => exact h.atTask t _
  | reply t reply gate => exact h.atTask t _

end Steps

/-- The item of a future is in the queue. -/
def Queued (s : LlmFilterEvaluator B H) (future : ℕ) : Prop := ∃ p ∈ s.queue, p.future = future

/-- The item of a future is in the batch of a task that lives. -/
def Owns (s : LlmFilterEvaluator B H) (t future : ℕ) : Prop :=
  ∃ task, s.tasks[t]? = some task ∧ task.phase.done = false ∧ task.cancelled = false ∧
    ∃ p ∈ task.pending, p.future = future

/-- A flush task that has not taken the queue and is not cancelled. -/
def FlushPending (s : LlmFilterEvaluator B H) (t : ℕ) : Prop :=
  ∃ task, s.tasks[t]? = some task ∧ task.phase.waits = true ∧ task.cancelled = false

/-- **A new item is queued**, or goes with the queue into a batch. -/
theorem evaluate_placed (batchSize : ℤ) (s : LlmFilterEvaluator B H) (bucket : B) (summary : H) :
    (s.evaluate batchSize bucket summary).created = s.created + 1 ∧
      ((s.evaluate batchSize bucket summary).Queued s.created ∨
        ∃ t, (s.evaluate batchSize bucket summary).Owns t s.created) := by
  have hmem : (⟨s.created, bucket, summary⟩ : PendingEvaluation B H) ∈ s.queue ++ [⟨s.created, bucket, summary⟩] :=
    List.mem_append_right _ (List.mem_singleton.mpr rfl)
  unfold evaluate
  simp only
  split
  · generalize (if s.flushing then s.cancelFlush else s) = s'
    exact ⟨rfl, .inr ⟨s'.tasks.length, _, List.getElem?_concat_length, rfl, rfl, _, hmem, rfl⟩⟩
  · split
    · exact ⟨rfl, .inl ⟨_, hmem, rfl⟩⟩
    · exact ⟨rfl, .inl ⟨_, hmem, rfl⟩⟩

/-- A timer that gets the lock takes the queue. -/
theorem flush_takes [DecidableEq B] {s : LlmFilterEvaluator B H} {t : ℕ} {task : EvaluatorTask B H}
    (ht : s.tasks[t]? = some task) (gate : List (PendingEvaluation B H) → BucketGate) :
    (s.flush t task gate).queue = [] ∧
      ∀ p ∈ s.queue, ∃ task', (s.flush t task gate).tasks[t]? = some task' ∧ p ∈ task'.pending := by
  obtain ⟨hlt, -⟩ := List.getElem?_eq_some_iff.mp ht
  unfold flush
  split
  case h_1 hqueue =>
    rw [hqueue]
    exact ⟨hqueue, fun p hp => absurd hp List.not_mem_nil⟩
  case h_2 q qs hqueue =>
    rw [hqueue]
    exact ⟨rfl, fun p hp => ⟨_, List.getElem?_set_self hlt, hp⟩⟩

/-- **The timer's steps take the queue**: after its delay, with the lock. -/
theorem timer_takes [DecidableEq B] [DecidableEq H] (batchSize : ℤ) {s : LlmFilterEvaluator B H} {t : ℕ}
    (h : s.FlushPending t) (gate : List (PendingEvaluation B H) → BucketGate) :
    (Runs.run (step batchSize) s [.expire t, .flush t gate]).queue = [] ∧
      ∀ p ∈ s.queue, ∃ task, (Runs.run (step batchSize) s [.expire t, .flush t gate]).tasks[t]? = some task ∧
        p ∈ task.pending := by
  obtain ⟨task, ht, hwaits, hcancelled⟩ := h
  obtain ⟨hlt, -⟩ := List.getElem?_eq_some_iff.mp ht
  obtain ⟨phase, pending, cancelled⟩ := task
  simp only at hcancelled
  subst hcancelled
  have hexpired : ∃ s' task', step batchSize s (.expire t) = s' ∧ s'.queue = s.queue ∧ s'.tasks[t]? = some task' ∧
      step batchSize s' (.flush t gate) = s'.flush t task' gate := by
    cases phase with
    | asleep =>
      refine ⟨s.setPhase t ⟨.asleep, pending, false⟩ .awake, ⟨.awake, pending, false⟩,
        by simp only [step, atTask, ht, resume], rfl, List.getElem?_set_self hlt, ?_⟩
      simp only [step, atTask, setPhase, List.getElem?_set_self hlt, resume]
    | awake =>
      refine ⟨s, _, by simp only [step, atTask, ht, resume], rfl, ht, ?_⟩
      simp only [step, atTask, ht, resume]
    | locking =>
      refine ⟨s, _, by simp only [step, atTask, ht, resume], rfl, ht, ?_⟩
      simp only [step, atTask, ht, resume]
    | starting | calling | finished => cases hwaits
  obtain ⟨s', task', hstep, hqueue, htask, hflush⟩ := hexpired
  rw [Runs.run_cons, Runs.run_cons, Runs.run_nil, hstep, hflush, ← hqueue]
  exact flush_takes htask gate

/-- A finished batch is answered. -/
theorem Consistent.finished (h : s.Consistent) (htask : task ∈ s.tasks) (hdone : task.phase.done = true) :
    ∀ p ∈ task.pending, s.settled.Done p.future := by
  have howes := (h.tasks task htask).1
  cases hphase : task.phase with
  | finished =>
      rw [hphase] at howes
      exact howes
  | _ =>
      rw [hphase] at hdone
      cases hdone

/-- A task that has an unanswered item lives. -/
theorem Consistent.owns (h : s.Consistent) (ht : s.tasks[t]? = some task) {p : PendingEvaluation B H}
    (hp : p ∈ task.pending) (hopen : ¬s.settled.Done p.future) : s.Owns t p.future := by
  have hmem := List.mem_of_getElem? ht
  refine ⟨task, ht, ?_, ?_, p, hp, rfl⟩
  · exact Bool.eq_false_iff.mpr fun hdone => hopen (h.finished hmem hdone p hp)
  · refine Bool.eq_false_iff.mpr fun hcancelled => ?_
    rw [(h.tasks task hmem).2 hcancelled] at hp
    cases hp

/-- No future has two places. -/
theorem Consistent.apart (h : s.Consistent) {i : ℕ} :
    (s.Queued i → ∀ t, ¬s.Owns t i) ∧ ∀ t t', s.Owns t i → s.Owns t' i → t = t' := by
  have hnodup : s.places.Nodup := h.places.nodup_iff.mpr List.nodup_range
  unfold LlmFilterEvaluator.places at hnodup
  rw [List.map_append, List.map_flatMap, List.nodup_append] at hnodup
  obtain ⟨-, htasks, hdisjoint⟩ := hnodup
  constructor
  · rintro ⟨p, hp, rfl⟩ t ⟨task, ht, -, -, q, hq, heq⟩
    refine hdisjoint _ (List.mem_map_of_mem hp) _ ?_ rfl
    exact List.mem_flatMap.mpr ⟨task, List.mem_of_getElem? ht, List.mem_map.mpr ⟨q, hq, heq⟩⟩
  · -- the batches of the tasks are pairwise disjoint
    have hpair := (List.nodup_flatMap.mp htasks).2
    have hlt : ∀ t t', t < t' → s.Owns t i → ¬s.Owns t' i := by
      rintro t t' hlt ⟨task, ht, -, -, p, hp, hpi⟩ ⟨task', ht', -, -, q, hq, hqi⟩
      obtain ⟨hlen, rfl⟩ := List.getElem?_eq_some_iff.mp ht
      obtain ⟨hlen', rfl⟩ := List.getElem?_eq_some_iff.mp ht'
      have hdisjoint := List.pairwise_iff_getElem.mp hpair t t' hlen hlen' hlt
      exact hdisjoint (List.mem_map.mpr ⟨p, hp, hpi⟩) (List.mem_map.mpr ⟨q, hq, hqi⟩)
    intro t t' ht ht'
    rcases Nat.lt_trichotomy t t' with h | h | h
    · exact absurd ht' (hlt t t' h ht)
    · exact h
    · exact absurd ht (hlt t' t h ht')

/-- Every future that was created has a place. -/
theorem Consistent.placed (h : s.Consistent) {i : ℕ} (hi : i < s.created) (hopen : ¬s.settled.Done i) :
    s.Queued i ∨ ∃ t, s.Owns t i := by
  have hmem : i ∈ s.places := h.places.mem_iff.mpr (List.mem_range.mpr hi)
  obtain ⟨p, hp, rfl⟩ := List.mem_map.mp hmem
  rcases List.mem_append.mp hp with hp | hp
  · exact .inl ⟨p, hp, rfl⟩
  · obtain ⟨task, htask, hp⟩ := List.mem_flatMap.mp hp
    obtain ⟨t, ht⟩ := List.getElem?_of_mem htask
    exact .inr ⟨t, h.owns ht hp hopen⟩

/-- **No evaluation is stranded or answered twice**: after every run, an unresolved item is in
the queue or in exactly one batch of a live task; a queue that is not empty has an uncancelled
flush task that has not taken it; a future is settled at most once; and a task that finished
uncancelled has settled the futures of its batch.  A call that the cache does not answer queues its
item or puts it into a batch, and a flush task that has its delay behind it and gets the lock takes
the queue. -/
theorem evaluations_answered {B H : Type} [DecidableEq B] [DecidableEq H] (batchSize : ℤ)
    (acts : List (EvaluatorAction B H)) :
    let s := Runs.run (step batchSize) start acts
    (∀ i < s.created, ¬s.settled.Done i →
      s.Queued i ∧ (∀ t, ¬s.Owns t i) ∨ ¬s.Queued i ∧ ∃! t, s.Owns t i) ∧
    (s.queue ≠ [] → ∃ t, s.FlushPending t) ∧
    (s.settled.map Prod.fst).Nodup ∧
    (∀ task ∈ s.tasks, task.phase.done = true → task.cancelled = false →
      ∀ p ∈ task.pending, s.settled.Done p.future) ∧
    (∀ bucket summary, let s' := step batchSize s (.evaluate false bucket summary)
      s'.created = s.created + 1 ∧ (s'.Queued s.created ∨ ∃ t, s'.Owns t s.created)) ∧
    ∀ t gate, s.FlushPending t → let s' := Runs.run (step batchSize) s [.expire t, .flush t gate]
      s'.queue = [] ∧ ∀ p ∈ s.queue, ∃ task, s'.tasks[t]? = some task ∧ p ∈ task.pending := by
  intro s
  have h : s.Sound := Runs.run_of_step (Sound.step batchSize) sound_start acts
  refine ⟨fun i hi hopen => ?_, fun hqueue => ?_, h.once,
    fun task htask hdone _ => h.finished htask hdone, fun bucket summary => evaluate_placed batchSize s bucket summary,
    fun t gate hpending => timer_takes batchSize hpending gate⟩
  · obtain ⟨hqueued, hunique⟩ := h.apart (i := i)
    by_cases hq : s.Queued i
    · exact .inl ⟨hq, hqueued hq⟩
    · obtain ⟨t, ht⟩ := (h.placed hi hopen).resolve_left hq
      exact .inr ⟨hq, t, ht, fun t' ht' => hunique t' t ht' ht⟩
  · obtain ⟨t, task, -, htask, hcancelled, hwaits⟩ := h.timer (h.queue hqueue)
    exact ⟨t, task, htask, hwaits, hcancelled⟩

end LlmFilterEvaluator

end Khora
