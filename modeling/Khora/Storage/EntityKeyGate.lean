import Khora.Lib.Asyncio
import Khora.Lib.Runs
import Mathlib.Data.Finset.Basic
import Mathlib.Data.Finset.SDiff
import Mathlib.Data.List.Pairwise

/-!
# The entity key gate

`_EntityKeyGate` lets batches of entities pass side by side that share no key, as many as it is told to.  A
task upserts one batch after the other; it waits at the condition of the gate, and leaves in a `finally`
block.  Tasks are cancelled at any wait.

* `Passing.enter`, `Passing.leave` — what the two writes of the gate keep.
* `atRest_step` — between two tasks that run the lock is free and nobody waits for it.
* `owned_run` — the keys of a task are those of its batch, in every run.
* `entityKeyGate_safe` — in every run the batches inside are disjoint, no task waits without need, and no
  key stays behind.
-/

namespace Khora

namespace EntityKeyGate

open Asyncio

/-! ## Tasks -/

/-- `(namespace_id, name, entity_type)` -/
abbrev Key := String × String × String

structure Batch where
  entities : List Key
  bypass : Bool
deriving DecidableEq

def Batch.keys (batch : Batch) : Finset Key := batch.entities.toFinset

inductive Ending where
  | finished
  | raised
deriving DecidableEq

/-- Where a task is, with the batches to come. -/
inductive Stage where
  /-- outside of the gate -/
  | ready (batches : List Batch)
  /-- at the lock -/
  | lockAcquire (keys : Finset Key) (rest : List Batch)
  /-- at the condition -/
  | waiting (keys : Finset Key) (rest : List Batch)
  /-- woken and at the lock; `err` is a cancellation meanwhile -/
  | relock (keys : Finset Key) (rest : List Batch) (err : Bool)
  /-- in the body, with the keys if the gate was not bypassed -/
  | working (keys : Option (Finset Key)) (rest : List Batch)
  /-- in the `finally` block, at the lock; `raised` is an error of the body -/
  | lockRelease (keys : Finset Key) (rest : List Batch) (raised : Bool)
  /-- the task that the loop runs -/
  | running (keys : Option (Finset Key))
  /-- with the keys that it has not given back -/
  | ended (how : Ending) (keys : Option (Finset Key))
deriving DecidableEq

/-- The keys that the task has put in flight and not taken out. -/
def Stage.held : Stage → Option (Finset Key)
  | .working keys _ => keys
  | .lockRelease keys _ _ => some keys
  | .running keys => keys
  | .ended _ keys => keys
  | _ => none

structure Task where
  stage : Stage
  /-- `_must_cancel` -/
  mustCancel : Bool
deriving DecidableEq

/-- The gate: its keys, its count, its lock, its condition; and the tasks. -/
structure State where
  inFlight : Finset Key
  active : ℤ
  locked : Bool
  lockWaiters : Waiters ℕ
  waiters : Waiters ℕ
  tasks : List Task
deriving DecidableEq

def start : State := ⟨∅, 0, false, [], [], []⟩

variable (maxConcurrent : ℕ)

/-! ## The code between two waits -/

def setStage (t : ℕ) (stage : Stage) (s : State) : State :=
  { s with tasks := s.tasks.modify t fun task => { task with stage := stage } }

/-- `Lock.release` -/
def unlock (s : State) : State := { s with locked := false, lockWaiters := wakeUpFirst s.lockWaiters }

/-- `Lock.acquire`: the code behind it, or a wait in the queue. -/
def withLock (t : ℕ) (wait : Stage) (code : State → State) (s : State) : State :=
  if lockFree s.locked s.lockWaiters then code { s with locked := true }
  else setStage t wait { s with lockWaiters := s.lockWaiters ++ [(t, .pending)] }

/-- `(keys & self._in_flight) or self._active >= self._max_concurrent` -/
def Shut (keys inFlight : Finset Key) (active : ℤ) : Prop := ¬Disjoint keys inFlight ∨ (maxConcurrent : ℤ) ≤ active

instance (keys inFlight : Finset Key) (active : ℤ) : Decidable (Shut maxConcurrent keys inFlight active) :=
  inferInstanceAs (Decidable (_ ∨ _))

/-- The loop of `acquire`, with the lock held. -/
def checkGate (t : ℕ) (keys : Finset Key) (rest : List Batch) (s : State) : State :=
  if Shut maxConcurrent keys s.inFlight s.active then
    setStage t (.waiting keys rest) (unlock { s with waiters := s.waiters ++ [(t, .pending)] })
  else
    setStage t (.working (some keys) rest)
      (unlock { s with inFlight := s.inFlight ∪ keys, active := s.active + 1 })

/-- `acquire` -/
def acquire (t : ℕ) (batch : Batch) (rest : List Batch) (s : State) : State :=
  if batch.bypass then setStage t (.working none rest) s
  else withLock t (.lockAcquire batch.keys rest) (checkGate maxConcurrent t batch.keys rest) s

/-- Behind the `finally` block. -/
def leaveBody (t : ℕ) (rest : List Batch) (raised : Bool) (s : State) : State :=
  setStage t (if raised then .ended .raised none else .ready rest) s

/-- The `finally` block, with the lock held. -/
def doRelease (t : ℕ) (keys : Finset Key) (rest : List Batch) (raised : Bool) (s : State) : State :=
  leaveBody t rest raised
    (unlock { s with inFlight := s.inFlight \ keys, active := s.active - 1, waiters := notifyAll s.waiters })

def release (t : ℕ) (keys : Finset Key) (rest : List Batch) (raised : Bool) (s : State) : State :=
  withLock t (.lockRelease keys rest raised) (doRelease t keys rest raised) s

/-- `Condition.wait` with the lock again: a cancellation notifies another task. -/
def afterWait (t : ℕ) (keys : Finset Key) (rest : List Batch) (err : Bool) (s : State) : State :=
  if err then setStage t (.ended .raised none) (unlock { s with waiters := notify 1 s.waiters })
  else checkGate maxConcurrent t keys rest s

def relock (t : ℕ) (keys : Finset Key) (rest : List Batch) (err : Bool) (s : State) : State :=
  withLock t (.relock keys rest err) (afterWait maxConcurrent t keys rest err) s

/-- A task leaves the queue of the lock: with the lock, or cancelled. -/
def leaveLock (t : ℕ) (thrown : Bool) (s : State) : State :=
  let queue := leave t s.lockWaiters
  if thrown then { s with lockWaiters := if s.locked then queue else wakeUpFirst queue }
  else { s with lockWaiters := queue, locked := true }

/-! ## The event loop -/

inductive Action where
  /-- a task with its batches -/
  | spawn (batches : List Batch)
  /-- `Task.cancel` -/
  | cancel (t : ℕ)
  /-- the loop runs a task that is ready -/
  | resume (t : ℕ)
  /-- the body is over, with or without an error; a cancellation of what it waits for is one -/
  | finishWork (t : ℕ) (raised : Bool)

/-- The task runs, its cancellation is taken. -/
def run (t : ℕ) (keys : Option (Finset Key)) (s : State) : State :=
  { s with tasks := s.tasks.modify t fun _ => ⟨.running keys, false⟩ }

/-- A future that is done makes the task ready; a cancelled one, or a cancellation of the task, is thrown. -/
def resumeTask (t : ℕ) (task : Task) (s : State) : State :=
  match task.stage with
  | .ready batches =>
      if task.mustCancel then setStage t (.ended .raised none) s
      else
        match batches with
        | [] => setStage t (.ended .finished none) s
        | batch :: rest => acquire maxConcurrent t batch rest (run t none s)
  | .waiting keys rest =>
      match futureOf t s.waiters with
      | some .resolved =>
          relock maxConcurrent t keys rest task.mustCancel (run t none { s with waiters := leave t s.waiters })
      | some .cancelled =>
          relock maxConcurrent t keys rest true (run t none { s with waiters := leave t s.waiters })
      | _ => s
  | .lockAcquire keys rest =>
      match futureOf t s.lockWaiters with
      | some .resolved =>
          if task.mustCancel then setStage t (.ended .raised none) (leaveLock t true s)
          else checkGate maxConcurrent t keys rest (run t none (leaveLock t false s))
      | some .cancelled => setStage t (.ended .raised none) (leaveLock t true s)
      | _ => s
  | .relock keys rest err =>
      match futureOf t s.lockWaiters with
      | some .resolved =>
          if task.mustCancel then relock maxConcurrent t keys rest true (run t none (leaveLock t true s))
          else afterWait maxConcurrent t keys rest err (run t none (leaveLock t false s))
      | some .cancelled => relock maxConcurrent t keys rest true (run t none (leaveLock t true s))
      | _ => s
  | .lockRelease keys rest raised =>
      match futureOf t s.lockWaiters with
      | some .resolved =>
          -- a cancellation here would leave the keys behind
          if task.mustCancel then setStage t (.ended .raised (some keys)) (leaveLock t true s)
          else doRelease t keys rest raised (run t (some keys) (leaveLock t false s))
      | some .cancelled => setStage t (.ended .raised (some keys)) (leaveLock t true s)
      | _ => s
  | _ => s

/-- `Task.cancel`: the future that the task waits for is cancelled, or the next wait of the task. -/
def cancelTask (t : ℕ) (task : Task) (s : State) : State :=
  if (t, .pending) ∈ s.waiters then { s with waiters := cancelFuture t s.waiters }
  else if (t, .pending) ∈ s.lockWaiters then { s with lockWaiters := cancelFuture t s.lockWaiters }
  else
    match task.stage with
    | .ended _ _ => s
    | _ => { s with tasks := s.tasks.modify t fun task => { task with mustCancel := true } }

/-- The body is over, and the `finally` block runs. -/
def finishBody (t : ℕ) (task : Task) (raised : Bool) (s : State) : State :=
  match task.stage with
  | .working none rest => leaveBody t rest raised (run t none s)
  | .working (some keys) rest => release t keys rest raised (run t (some keys) s)
  | _ => s

def step (s : State) : Action → State
  | .spawn batches => { s with tasks := s.tasks ++ [⟨.ready batches, false⟩] }
  | .cancel t =>
      match s.tasks[t]? with
      | some task => cancelTask t task s
      | none => s
  | .resume t =>
      match s.tasks[t]? with
      | some task => resumeTask maxConcurrent t task s
      | none => s
  | .finishWork t raised =>
      match s.tasks[t]? with
      | some task => finishBody t task raised s
      | none => s

/-! ## What is inside -/

/-- The key sets inside, what is in flight and the count: the sets are disjoint, and not too many. -/
structure Passing (inside : List (Finset Key)) (inFlight : Finset Key) (active : ℤ) : Prop where
  disjoint : inside.Pairwise Disjoint
  union : ∀ x, x ∈ inFlight ↔ ∃ keys ∈ inside, x ∈ keys
  counted : active = inside.length
  bounded : inside.length ≤ maxConcurrent

section Passing

variable {maxConcurrent} {inside inside' : List (Finset Key)} {keys inFlight : Finset Key} {active : ℤ}

theorem Passing.perm (h : Passing maxConcurrent inside inFlight active) (hperm : inside.Perm inside') :
    Passing maxConcurrent inside' inFlight active := by
  refine ⟨h.disjoint.perm hperm fun hd => hd.symm, fun x => ?_, ?_, hperm.length_eq ▸ h.bounded⟩
  · rw [h.union]
    exact exists_congr fun keys => and_congr_left fun _ => hperm.mem_iff
  · rw [h.counted, hperm.length_eq]

/-- **A batch that the gate lets in** is disjoint from those inside. -/
theorem Passing.enter (h : Passing maxConcurrent inside inFlight active)
    (hopen : ¬Shut maxConcurrent keys inFlight active) :
    Passing maxConcurrent (keys :: inside) (inFlight ∪ keys) (active + 1) := by
  obtain ⟨hdisjoint, hroom⟩ := not_or.mp hopen
  rw [not_not] at hdisjoint
  refine ⟨List.pairwise_cons.mpr ⟨fun keys' hmem => ?_, h.disjoint⟩, fun x => ?_, ?_, ?_⟩
  · refine Finset.disjoint_left.mpr fun x hx hx' => ?_
    exact Finset.disjoint_left.mp hdisjoint hx ((h.union x).mpr ⟨keys', hmem, hx'⟩)
  · rw [Finset.mem_union, h.union]
    simp [or_comm]
  · rw [h.counted, List.length_cons]
    omega
  · have hcount := h.counted
    rw [List.length_cons]
    omega

/-- **A batch that leaves** takes its own keys and no others. -/
theorem Passing.leave (h : Passing maxConcurrent (keys :: inside) inFlight active) :
    Passing maxConcurrent inside (inFlight \ keys) (active - 1) := by
  obtain ⟨hown, hdisjoint⟩ := List.pairwise_cons.mp h.disjoint
  refine ⟨hdisjoint, fun x => ?_, ?_, ?_⟩
  · rw [Finset.mem_sdiff, h.union]
    constructor
    · rintro ⟨⟨keys', hmem, hx⟩, hnot⟩
      rcases List.mem_cons.mp hmem with rfl | hmem
      · exact absurd hx hnot
      · exact ⟨keys', hmem, hx⟩
    · rintro ⟨keys', hmem, hx⟩
      exact ⟨⟨keys', List.mem_cons_of_mem _ hmem, hx⟩, fun hk => Finset.disjoint_left.mp (hown keys' hmem) hk hx⟩
  · have hcount := h.counted
    rw [List.length_cons] at hcount
    omega
  · have hbound := h.bounded
    rw [List.length_cons] at hbound
    omega

/-- The gate is not opened by a batch that enters. -/
theorem Shut.enter {keys' : Finset Key} (h : Shut maxConcurrent keys inFlight active) :
    Shut maxConcurrent keys (inFlight ∪ keys') (active + 1) := by
  rcases h with h | h
  · exact .inl fun hd => h (hd.mono_right Finset.subset_union_left)
  · exact .inr (by omega)

end Passing

def stageOf (s : State) (t : ℕ) : Option Stage := (s.tasks[t]?).map Task.stage

/-- The key sets that are in flight for a task. -/
def inside (s : State) : List (Finset Key) := s.tasks.filterMap fun task => task.stage.held

/-- One task goes from a stage to another. -/
structure Moves (s s' : State) (t : ℕ) (old stage : Stage) : Prop where
  source : stageOf s t = some old
  target : stageOf s' t = some stage
  others : ∀ i, i ≠ t → stageOf s' i = stageOf s i
  inside : (old.held.toList ++ inside s').Perm (stage.held.toList ++ inside s)

theorem inside_modify {tasks : List Task} {t : ℕ} {task : Task} (h : tasks[t]? = some task) (f : Task → Task) :
    (task.stage.held.toList ++ (tasks.modify t f).filterMap fun task => task.stage.held).Perm
      ((f task).stage.held.toList ++ tasks.filterMap fun task => task.stage.held) := by
  have hcons : ∀ (task : Task) (tasks : List Task),
      ((task :: tasks).filterMap fun task => task.stage.held) =
        task.stage.held.toList ++ tasks.filterMap fun task => task.stage.held := by
    intro task tasks
    rw [List.filterMap_cons]
    cases task.stage.held <;> rfl
  induction tasks generalizing t with
  | nil => cases h
  | cons task' tasks ih =>
      cases t with
      | zero =>
          cases h
          rw [List.modify_zero_cons, hcons, hcons]
          exact List.perm_append_comm_assoc _ _ _
      | succ t =>
          have hrest := ih (by simpa using h)
          rw [List.modify_succ_cons, hcons, hcons]
          exact (List.perm_append_comm_assoc _ _ _).trans
            ((hrest.append_left _).trans (List.perm_append_comm_assoc _ _ _))

theorem moves_modify {s s' : State} {t : ℕ} {old stage : Stage} (h : stageOf s t = some old) {f : Task → Task}
    (hf : ∀ task, (f task).stage = stage) (htasks : s'.tasks = s.tasks.modify t f) : Moves s s' t old stage := by
  obtain ⟨task, htask, rfl⟩ := Option.map_eq_some_iff.mp h
  constructor
  · exact h
  · rw [stageOf, htasks, List.getElem?_modify_eq, htask]
    exact congrArg some (hf task)
  · intro i hi
    rw [stageOf, htasks, List.getElem?_modify_ne f _ hi.symm]
    rfl
  · have hperm := inside_modify htask f
    rw [hf] at hperm
    rw [EntityKeyGate.inside, htasks]
    exact hperm

/-! ## The invariant -/

/-- No task waits for the lock, and none ends with keys. -/
def Stage.Ok : Stage → Prop
  | .lockAcquire _ _ => False
  | .relock _ _ _ => False
  | .lockRelease _ _ _ => False
  | .ended _ keys => keys = none
  | _ => True

structure Inv (s : State) : Prop where
  passing : Passing maxConcurrent (inside s) s.inFlight s.active
  stages : ∀ t stage, stageOf s t = some stage → stage.Ok
  queue : ∀ t, t ∈ s.waiters.map Prod.fst ↔ ∃ keys rest, stageOf s t = some (.waiting keys rest)
  blocked : ∀ t keys rest, stageOf s t = some (.waiting keys rest) → (t, .pending) ∈ s.waiters →
    Shut maxConcurrent keys s.inFlight s.active
  lock : s.lockWaiters = []

variable {maxConcurrent} {s s' : State} {t : ℕ}

/-- A move of a task that holds what it held. -/
theorem Moves.same {old stage : Stage} (hm : Moves s s' t old stage) (hheld : old.held = stage.held) :
    (EntityKeyGate.inside s).Perm (EntityKeyGate.inside s') := by
  have hperm := hm.inside
  rw [hheld] at hperm
  exact ((List.perm_append_left_iff _).mp hperm).symm

/-- **A move** keeps the invariant if a task waits only where the gate is shut. -/
theorem Inv.move {old stage : Stage} (h : Inv maxConcurrent s) (hm : Moves s s' t old stage) (hok : stage.Ok)
    (hpassing : Passing maxConcurrent (inside s') s'.inFlight s'.active)
    (hkeys : ∀ i, i ∈ s'.waiters.map Prod.fst ↔
      (i ≠ t ∧ i ∈ s.waiters.map Prod.fst) ∨ (i = t ∧ ∃ keys rest, stage = .waiting keys rest))
    (hpending : ∀ i, i ≠ t → (i, .pending) ∈ s'.waiters → (i, .pending) ∈ s.waiters ∧
      ∀ keys, Shut maxConcurrent keys s.inFlight s.active → Shut maxConcurrent keys s'.inFlight s'.active)
    (hself : ∀ keys rest, stage = .waiting keys rest → Shut maxConcurrent keys s'.inFlight s'.active)
    (hlock : s'.lockWaiters = []) : Inv maxConcurrent s' := by
  refine ⟨hpassing, fun i stage' hi => ?_, fun i => ?_, fun i keys rest hi hmem => ?_, hlock⟩
  · by_cases heq : i = t
    · subst heq
      cases hm.target.symm.trans hi
      exact hok
    · exact h.stages i stage' ((hm.others i heq).symm.trans hi)
  · rw [hkeys]
    by_cases heq : i = t
    · subst heq
      rw [hm.target]
      simp
    · rw [hm.others i heq, h.queue i]
      simp [heq]
  · by_cases heq : i = t
    · subst heq
      cases hm.target.symm.trans hi
      exact hself keys rest rfl
    · obtain ⟨hold, hshut⟩ := hpending i heq hmem
      exact hshut keys (h.blocked i keys rest ((hm.others i heq).symm.trans hi) hold)

/-- A stage that is no wait at the condition. -/
def Stage.Awake (stage : Stage) : Prop := ∀ keys rest, stage ≠ .waiting keys rest

/-- A move of a task that neither starts nor ends to wait at the condition. -/
theorem Inv.move_awake {old stage : Stage} (h : Inv maxConcurrent s) (hm : Moves s s' t old stage)
    (hold : old.Awake) (hstage : stage.Awake) (hok : stage.Ok)
    (hpassing : Passing maxConcurrent (inside s') s'.inFlight s'.active)
    (hkeys : s'.waiters.map Prod.fst = s.waiters.map Prod.fst)
    (hpending : ∀ i, (i, .pending) ∈ s'.waiters → (i, .pending) ∈ s.waiters ∧
      ∀ keys, Shut maxConcurrent keys s.inFlight s.active → Shut maxConcurrent keys s'.inFlight s'.active)
    (hlock : s'.lockWaiters = []) : Inv maxConcurrent s' := by
  refine h.move hm hok hpassing (fun i => ?_) (fun i _ => hpending i)
    (fun keys rest heq => absurd heq (hstage keys rest)) hlock
  have hnot : t ∉ s.waiters.map Prod.fst := by
    rw [h.queue]
    rintro ⟨keys, rest, hw⟩
    exact hold keys rest (Option.some.inj (hm.source.symm.trans hw))
  rw [hkeys]
  constructor
  · intro hi
    refine .inl ⟨?_, hi⟩
    rintro rfl
    exact hnot hi
  · rintro (⟨-, hi⟩ | ⟨-, keys, rest, heq⟩)
    · exact hi
    · exact absurd heq (hstage keys rest)

/-- A move that leaves the gate and its waiters as they are. -/
theorem Inv.move_quiet {old stage : Stage} (h : Inv maxConcurrent s) (hm : Moves s s' t old stage)
    (hold : old.Awake) (hstage : stage.Awake) (hok : stage.Ok) (hheld : old.held = stage.held)
    (hinFlight : s'.inFlight = s.inFlight) (hactive : s'.active = s.active)
    (hkeys : s'.waiters.map Prod.fst = s.waiters.map Prod.fst)
    (hpending : ∀ i, (i, .pending) ∈ s'.waiters → (i, .pending) ∈ s.waiters)
    (hlock : s'.lockWaiters = []) : Inv maxConcurrent s' := by
  apply h.move_awake hm hold hstage hok _ hkeys _ hlock
  · rw [hinFlight, hactive]
    exact h.passing.perm (hm.same hheld)
  · intro i hi
    rw [hinFlight, hactive]
    exact ⟨hpending i hi, fun _ hshut => hshut⟩

/-- The task runs, with the keys it holds, and no other one. -/
structure Active (maxConcurrent : ℕ) (s : State) (t : ℕ) (keys : Option (Finset Key)) : Prop where
  inv : Inv maxConcurrent s
  runs : stageOf s t = some (.running keys)
  alone : ∀ i, i ≠ t → ∀ k, stageOf s i ≠ some (.running k)

/-- No task runs: the lock is free. -/
structure AtRest (maxConcurrent : ℕ) (s : State) : Prop where
  inv : Inv maxConcurrent s
  unlocked : s.locked = false
  idle : ∀ i k, stageOf s i ≠ some (.running k)

theorem Active.rest {keys : Option (Finset Key)} {stage : Stage} (h : Active maxConcurrent s t keys)
    (hm : Moves s s' t (.running keys) stage) (hstage : ∀ k, stage ≠ .running k) (hinv : Inv maxConcurrent s')
    (hlocked : s'.locked = false) : AtRest maxConcurrent s' := by
  refine ⟨hinv, hlocked, fun i k hi => ?_⟩
  by_cases heq : i = t
  · subst heq
    exact hstage k (Option.some.inj (hm.target.symm.trans hi))
  · exact h.alone i heq k ((hm.others i heq).symm.trans hi)

theorem Active.start {keys : Option (Finset Key)} {old : Stage} (h : AtRest maxConcurrent s)
    (hm : Moves s s' t old (.running keys)) (hinv : Inv maxConcurrent s') : Active maxConcurrent s' t keys :=
  ⟨hinv, hm.target, fun i hi k hk => h.idle i k ((hm.others i hi).symm.trans hk)⟩

/-! ## What the code keeps -/

theorem unlock_lockWaiters (h : s.lockWaiters = []) : (unlock s).lockWaiters = [] := by
  show wakeUpFirst s.lockWaiters = []
  rw [h]
  rfl

theorem withLock_free (hlocked : s.locked = false) (hlock : s.lockWaiters = []) (wait : Stage)
    (code : State → State) : withLock t wait code s = code { s with locked := true } := by
  rw [withLock, if_pos]
  simp [lockFree, hlocked, hlock]

theorem Active.lock {keys : Option (Finset Key)} (h : Active maxConcurrent s t keys) :
    Active maxConcurrent { s with locked := true } t keys :=
  ⟨⟨h.inv.passing, h.inv.stages, h.inv.queue, h.inv.blocked, h.inv.lock⟩, h.runs, h.alone⟩

/-- A running task that holds nothing comes to rest without a word to the gate. -/
theorem Active.quiet {stage : Stage} (h : Active maxConcurrent s t none) (hstage : stage.Awake) (hok : stage.Ok)
    (hheld : stage.held = none) (hrest : ∀ k, stage ≠ .running k) (htasks : s'.tasks = s.tasks)
    (hinFlight : s'.inFlight = s.inFlight) (hactive : s'.active = s.active)
    (hkeys : s'.waiters.map Prod.fst = s.waiters.map Prod.fst)
    (hpending : ∀ i, (i, .pending) ∈ s'.waiters → (i, .pending) ∈ s.waiters) (hlocked : s'.locked = false)
    (hlock : s'.lockWaiters = []) : AtRest maxConcurrent (setStage t stage s') := by
  have hm : Moves s (setStage t stage s') t (.running none) stage :=
    moves_modify h.runs (fun _ => rfl) (by rw [← htasks]; rfl)
  exact h.rest hm hrest
    (h.inv.move_quiet hm nofun hstage hok hheld.symm hinFlight hactive hkeys hpending hlock) hlocked

/-- **The check of the gate**: a wait where it is shut, or a batch that enters. -/
theorem checkGate_atRest (h : Active maxConcurrent s t none) (keys : Finset Key) (rest : List Batch) :
    AtRest maxConcurrent (checkGate maxConcurrent t keys rest s) := by
  unfold checkGate
  have hlock := unlock_lockWaiters h.inv.lock
  split
  case isTrue hshut =>
    have hm : Moves s (setStage t (.waiting keys rest) (unlock { s with waiters := s.waiters ++ [(t, .pending)] }))
        t (.running none) (.waiting keys rest) := moves_modify h.runs (fun _ => rfl) rfl
    refine h.rest hm nofun (h.inv.move hm trivial (h.inv.passing.perm (hm.same rfl)) (fun i => ?_)
      (fun i hi hmem => ?_) ?_ hlock) rfl
    · show i ∈ (s.waiters ++ [(t, Future.pending)]).map Prod.fst ↔ _
      by_cases heq : i = t
      · simp [heq]
      · simp [heq]
    · refine ⟨(List.mem_append.mp hmem).resolve_right fun hmem => hi ?_, fun _ hs => hs⟩
      exact congrArg Prod.fst (List.mem_singleton.mp hmem)
    · rintro keys' rest' ⟨⟩
      exact hshut
  case isFalse hopen =>
    have hm : Moves s (setStage t (.working (some keys) rest)
        (unlock { s with inFlight := s.inFlight ∪ keys, active := s.active + 1 })) t (.running none)
        (.working (some keys) rest) := moves_modify h.runs (fun _ => rfl) rfl
    refine h.rest hm nofun (h.inv.move_awake hm nofun nofun trivial ?_ rfl ?_ hlock) rfl
    · exact (h.inv.passing.enter hopen).perm hm.inside.symm
    · exact fun i hi => ⟨hi, fun _ hshut => hshut.enter⟩

theorem acquire_atRest (h : Active maxConcurrent s t none) (hlocked : s.locked = false) (batch : Batch)
    (rest : List Batch) : AtRest maxConcurrent (acquire maxConcurrent t batch rest s) := by
  unfold acquire
  split
  · exact h.quiet nofun trivial rfl nofun rfl rfl rfl rfl (fun _ hi => hi) hlocked h.inv.lock
  · rw [withLock_free hlocked h.inv.lock]
    exact checkGate_atRest h.lock batch.keys rest

/-- **A task that leaves** wakes everyone who waits. -/
theorem release_atRest {keys : Finset Key} (h : Active maxConcurrent s t (some keys)) (hlocked : s.locked = false)
    (rest : List Batch) (raised : Bool) : AtRest maxConcurrent (release t keys rest raised s) := by
  rw [release, withLock_free hlocked h.inv.lock, doRelease, leaveBody]
  generalize hstage : (if raised then Stage.ended .raised none else .ready rest) = stage
  have hok : stage.Awake ∧ stage.Ok ∧ stage.held = none ∧ ∀ k, stage ≠ .running k := by
    subst hstage
    cases raised with
    | true => exact ⟨nofun, rfl, rfl, nofun⟩
    | false => exact ⟨nofun, trivial, rfl, nofun⟩
  generalize hleft : setStage t stage (unlock { s with
    locked := true, inFlight := s.inFlight \ keys, active := s.active - 1, waiters := notifyAll s.waiters }) = left
  have hm : Moves s left t (.running (some keys)) stage := by
    subst hleft
    exact moves_modify h.runs (fun _ => rfl) rfl
  have hinside : (keys :: inside left).Perm (inside s) := by
    have hperm := hm.inside
    rwa [hok.2.2.1] at hperm
  subst hleft
  refine h.rest hm hok.2.2.2 (h.inv.move_awake hm nofun hok.1 hok.2.1 ?_ (map_fst_notify _ _) ?_
    (unlock_lockWaiters h.inv.lock)) rfl
  · exact (h.inv.passing.perm hinside.symm).leave
  · exact fun i hi => absurd hi (not_pending_notifyAll s.waiters i)

theorem relock_atRest (h : Active maxConcurrent s t none) (hlocked : s.locked = false) (keys : Finset Key)
    (rest : List Batch) (err : Bool) : AtRest maxConcurrent (relock maxConcurrent t keys rest err s) := by
  rw [relock, withLock_free hlocked h.inv.lock, afterWait]
  cases err with
  | true =>
      exact h.quiet nofun rfl rfl nofun rfl rfl rfl (map_fst_notify _ _) (fun _ hi => pending_of_notify hi) rfl
        (unlock_lockWaiters h.inv.lock)
  | false => exact checkGate_atRest h.lock keys rest

/-! ## Steps and runs -/

theorem AtRest.activate {keys : Option (Finset Key)} {old : Stage} (h : AtRest maxConcurrent s)
    (hold : stageOf s t = some old) (hawake : old.Awake) (hheld : old.held = keys) :
    Active maxConcurrent (run t keys s) t keys := by
  have hm : Moves s (run t keys s) t old (.running keys) := moves_modify hold (fun _ => rfl) rfl
  exact Active.start h hm
    (h.inv.move_quiet hm hawake nofun trivial hheld rfl rfl rfl (fun _ hi => hi) h.inv.lock)

/-- A task that was woken runs, and leaves the queue. -/
theorem AtRest.wake {keys : Finset Key} {rest : List Batch} (h : AtRest maxConcurrent s)
    (hold : stageOf s t = some (.waiting keys rest)) :
    Active maxConcurrent (run t none { s with waiters := leave t s.waiters }) t none := by
  have hm : Moves s (run t none { s with waiters := leave t s.waiters }) t (.waiting keys rest)
      (.running none) := moves_modify hold (fun _ => rfl) rfl
  refine Active.start h hm (h.inv.move hm trivial (h.inv.passing.perm (hm.same rfl)) (fun i => ?_)
    (fun i _ hmem => ?_) nofun h.inv.lock)
  · show i ∈ (leave t s.waiters).map Prod.fst ↔ _
    rw [mem_map_leave]
    simp [and_comm]
  · exact ⟨(mem_leave.mp hmem).1, fun _ hs => hs⟩

/-- A task outside of the gate ends. -/
theorem AtRest.end {how : Ending} {batches : List Batch} (h : AtRest maxConcurrent s)
    (hold : stageOf s t = some (.ready batches)) : AtRest maxConcurrent (setStage t (.ended how none) s) := by
  have hm : Moves s (setStage t (.ended how none) s) t (.ready batches) (.ended how none) :=
    moves_modify hold (fun _ => rfl) rfl
  refine ⟨h.inv.move_quiet hm nofun nofun rfl rfl rfl rfl rfl (fun _ hi => hi) h.inv.lock, h.unlocked,
    fun i k hk => ?_⟩
  by_cases heq : i = t
  · subst heq
    cases hm.target.symm.trans hk
  · exact h.idle i k ((hm.others i heq).symm.trans hk)

theorem resumeTask_atRest (h : AtRest maxConcurrent s) {task : Task} (htask : s.tasks[t]? = some task) :
    AtRest maxConcurrent (resumeTask maxConcurrent t task s) := by
  have hstage : stageOf s t = some task.stage := congrArg (Option.map Task.stage) htask
  have hok := h.inv.stages t task.stage hstage
  unfold resumeTask
  cases hst : task.stage with
  | ready batches =>
      rw [hst] at hstage
      cases task.mustCancel with
      | true => exact h.end hstage
      | false =>
          cases batches with
          | nil => exact h.end hstage
          | cons batch rest => exact acquire_atRest (h.activate hstage nofun rfl) h.unlocked batch rest
  | waiting keys rest =>
      rw [hst] at hstage
      have hactive := h.wake hstage
      cases hfuture : futureOf t s.waiters with
      | none => simpa [hfuture] using h
      | some future =>
          cases future with
          | pending => simpa [hfuture] using h
          | resolved => simpa [hfuture] using relock_atRest hactive h.unlocked keys rest task.mustCancel
          | cancelled => simpa [hfuture] using relock_atRest hactive h.unlocked keys rest true
  | working keys rest => exact h
  | running keys => exact h
  | ended how keys => exact h
  | lockAcquire keys rest =>
      rw [hst] at hok
      exact hok.elim
  | relock keys rest err =>
      rw [hst] at hok
      exact hok.elim
  | lockRelease keys rest raised =>
      rw [hst] at hok
      exact hok.elim

theorem finishBody_atRest (h : AtRest maxConcurrent s) {task : Task} (htask : s.tasks[t]? = some task)
    (raised : Bool) : AtRest maxConcurrent (finishBody t task raised s) := by
  have hstage : stageOf s t = some task.stage := congrArg (Option.map Task.stage) htask
  unfold finishBody
  split
  case h_1 rest hworking =>
    rw [hworking] at hstage
    have hactive := h.activate hstage nofun rfl
    rw [leaveBody]
    cases raised with
    | true =>
        exact hactive.quiet nofun rfl rfl nofun rfl rfl rfl rfl (fun _ hi => hi) h.unlocked hactive.inv.lock
    | false =>
        exact hactive.quiet nofun trivial rfl nofun rfl rfl rfl rfl (fun _ hi => hi) h.unlocked hactive.inv.lock
  case h_2 keys rest hworking =>
    rw [hworking] at hstage
    exact release_atRest (h.activate hstage nofun rfl) h.unlocked rest raised
  case h_3 => exact h

/-- The stages of the tasks say what holds of the gate. -/
theorem AtRest.of_stages (h : AtRest maxConcurrent s) {tasks : List Task}
    (hstages : ∀ i, stageOf { s with tasks := tasks } i = stageOf s i)
    (hinside : inside { s with tasks := tasks } = inside s) : AtRest maxConcurrent { s with tasks := tasks } := by
  refine ⟨⟨?_, ?_, ?_, ?_, h.inv.lock⟩, h.unlocked, ?_⟩
  · rw [hinside]
    exact h.inv.passing
  · exact fun i stage hi => h.inv.stages i stage ((hstages i).symm.trans hi)
  · intro i
    rw [hstages]
    exact h.inv.queue i
  · exact fun i keys rest hi hmem => h.inv.blocked i keys rest ((hstages i).symm.trans hi) hmem
  · exact fun i k hk => h.idle i k ((hstages i).symm.trans hk)

theorem cancelTask_atRest (h : AtRest maxConcurrent s) (task : Task) :
    AtRest maxConcurrent (cancelTask t task s) := by
  have hflag : AtRest maxConcurrent
      { s with tasks := s.tasks.modify t fun task => { task with mustCancel := true } } := by
    have hmap : (s.tasks.modify t fun task => { task with mustCancel := true }).map Task.stage =
        s.tasks.map Task.stage := by
      refine List.ext_getElem? fun i => ?_
      rw [List.getElem?_map, List.getElem?_map, List.getElem?_modify]
      cases s.tasks[i]? with
      | none => rfl
      | some task' => by_cases hi : t = i <;> simp [hi]
    have hinside : ∀ tasks : List Task,
        (tasks.filterMap fun task => task.stage.held) = (tasks.map Task.stage).filterMap Stage.held := by
      intro tasks
      rw [List.filterMap_map]
      rfl
    apply h.of_stages
    · intro i
      rw [stageOf, stageOf, ← List.getElem?_map, ← List.getElem?_map, hmap]
    · rw [inside, inside, hinside, hinside, hmap]
  unfold cancelTask
  split
  · refine ⟨⟨h.inv.passing, h.inv.stages, fun i => ?_, ?_, h.inv.lock⟩, h.unlocked, h.idle⟩
    · show i ∈ (cancelFuture t s.waiters).map Prod.fst ↔ _
      rw [map_fst_cancelFuture]
      exact h.inv.queue i
    · exact fun i keys rest hi hmem => h.inv.blocked i keys rest hi (pending_of_cancelFuture hmem)
  · split
    case isTrue hmem =>
      rw [h.inv.lock] at hmem
      exact absurd hmem List.not_mem_nil
    case isFalse =>
      split
      · exact h
      · exact hflag

theorem spawn_atRest (h : AtRest maxConcurrent s) (batches : List Batch) :
    AtRest maxConcurrent { s with tasks := s.tasks ++ [⟨.ready batches, false⟩] } := by
  have hkept : ∀ i stage, (∀ batches, stage ≠ .ready batches) →
      (stageOf { s with tasks := s.tasks ++ [⟨.ready batches, false⟩] } i = some stage ↔
        stageOf s i = some stage) := by
    intro i stage hne
    show ((s.tasks ++ [_])[i]?).map Task.stage = some stage ↔ (s.tasks[i]?).map Task.stage = some stage
    rcases Nat.lt_trichotomy i s.tasks.length with hlt | rfl | hlt
    · rw [List.getElem?_append_left hlt]
    · rw [List.getElem?_concat_length, List.getElem?_eq_none (Nat.le_refl _)]
      simpa [eq_comm] using hne batches
    · rw [List.getElem?_eq_none (by rw [List.length_append, List.length_singleton]; omega),
        List.getElem?_eq_none (Nat.le_of_lt hlt)]
  refine ⟨⟨?_, ?_, ?_, ?_, h.inv.lock⟩, h.unlocked, ?_⟩
  · have hinside : inside { s with tasks := s.tasks ++ [⟨.ready batches, false⟩] } = inside s := by
      show (s.tasks ++ [_]).filterMap _ = _
      rw [List.filterMap_append]
      exact List.append_nil _
    rw [hinside]
    exact h.inv.passing
  · intro i stage hi
    cases hst : stage with
    | ready => trivial
    | _ =>
        subst hst
        exact h.inv.stages i _ ((hkept i _ fun _ heq => by cases heq).mp hi)
  · intro i
    have hiff : (∃ keys rest, stageOf { s with tasks := s.tasks ++ [⟨.ready batches, false⟩] } i =
        some (.waiting keys rest)) ↔ ∃ keys rest, stageOf s i = some (.waiting keys rest) :=
      exists_congr fun keys => exists_congr fun rest => hkept i _ fun _ heq => by cases heq
    rw [hiff]
    exact h.inv.queue i
  · exact fun i keys rest hi hmem => h.inv.blocked i keys rest ((hkept i _ fun _ heq => by cases heq).mp hi) hmem
  · exact fun i k hk => h.idle i k ((hkept i _ fun _ heq => by cases heq).mp hk)

/-- **Between two waits** the lock is free and nobody waits for it. -/
theorem atRest_step (h : AtRest maxConcurrent s) (a : Action) : AtRest maxConcurrent (step maxConcurrent s a) := by
  cases a with
  | spawn batches => exact spawn_atRest h batches
  | cancel t =>
      unfold step
      cases htask : s.tasks[t]? with
      | none => simpa [htask] using h
      | some task => simpa [htask] using cancelTask_atRest h task
  | resume t =>
      unfold step
      cases htask : s.tasks[t]? with
      | none => simpa [htask] using h
      | some task => simpa [htask] using resumeTask_atRest h htask
  | finishWork t raised =>
      unfold step
      cases htask : s.tasks[t]? with
      | none => simpa [htask] using h
      | some task => simpa [htask] using finishBody_atRest h htask raised

theorem atRest_start : AtRest maxConcurrent start := by
  refine ⟨⟨⟨List.Pairwise.nil, fun x => ?_, rfl, Nat.zero_le _⟩, nofun, fun t => ?_, nofun, rfl⟩, rfl, nofun⟩
  · simp [start, inside]
  · exact iff_of_false List.not_mem_nil fun ⟨keys, rest, h⟩ => by cases h

/-- The state after the actions. -/
def after (maxConcurrent : ℕ) (acts : List Action) : State := Runs.run (step maxConcurrent) start acts

theorem atRest_after (maxConcurrent : ℕ) (acts : List Action) : AtRest maxConcurrent (after maxConcurrent acts) :=
  @Runs.run_of_step _ _ (step maxConcurrent) (AtRest maxConcurrent) (fun _ a h => atRest_step h a) start
    atRest_start acts

/-! ## The batches of the tasks -/

/-- The keys are those of the entities of a batch that is not let past the gate, the one before the rest. -/
def OfBatch (own : List Batch) (keys : Finset Key) (rest : List Batch) : Prop :=
  ∃ batch, batch :: rest <:+ own ∧ batch.bypass = false ∧ ∀ key, key ∈ keys ↔ key ∈ batch.entities

/-- What a task with these batches waits for, holds or works on is the batch before the rest. -/
def Stage.FromBatch (own : List Batch) : Stage → Prop
  | .ready rest => rest <:+ own
  | .lockAcquire keys rest => OfBatch own keys rest
  | .waiting keys rest => OfBatch own keys rest
  | .relock keys rest _ => OfBatch own keys rest
  | .working (some keys) rest => OfBatch own keys rest
  | .working none rest => ∃ batch, batch :: rest <:+ own ∧ batch.bypass = true
  | .lockRelease keys rest _ => OfBatch own keys rest
  | .running keys => ∀ k ∈ keys, ∃ rest, OfBatch own k rest
  | .ended _ keys => ∀ k ∈ keys, ∃ rest, OfBatch own k rest

/-- Every task is in a stage of its own batches. -/
structure Owned (batches : List (List Batch)) (s : State) : Prop where
  length : s.tasks.length = batches.length
  stages : ∀ (t : ℕ) (own : List Batch) (task : Task), batches[t]? = some own → s.tasks[t]? = some task →
    task.stage.FromBatch own

section Owned

variable {batches : List (List Batch)} {keys : Finset Key} {rest : List Batch}

theorem OfBatch.rest_suffix {own : List Batch} (h : OfBatch own keys rest) : rest <:+ own := by
  obtain ⟨batch, hsuffix, -⟩ := h
  exact (List.suffix_cons batch rest).trans hsuffix

/-- One task goes to a stage of its batches; the gate may change in any way. -/
theorem owned_modify (h : Owned batches s) {f : Task → Task} (htasks : s'.tasks = s.tasks.modify t f)
    (hf : ∀ own task, batches[t]? = some own → task.stage.FromBatch own → (f task).stage.FromBatch own) :
    Owned batches s' := by
  refine ⟨htasks ▸ (List.length_modify ..).trans h.length, fun i own task hown htask => ?_⟩
  rw [htasks, List.getElem?_modify] at htask
  obtain ⟨old, hold, rfl⟩ := Option.map_eq_some_iff.mp htask
  have hstage := h.stages i own old hown hold
  split
  next hi =>
    subst hi
    exact hf own old hown hstage
  next => exact hstage

theorem owned_same (h : Owned batches s) (htasks : s'.tasks = s.tasks) : Owned batches s' :=
  ⟨htasks ▸ h.length, htasks ▸ h.stages⟩

theorem owned_setStage {stage : Stage} (h : Owned batches s)
    (hstage : ∀ own, batches[t]? = some own → stage.FromBatch own) : Owned batches (setStage t stage s) :=
  owned_modify h rfl fun own _ hown _ => hstage own hown

theorem owned_idle (h : Owned batches s) : Owned batches (run t none s) :=
  owned_modify h rfl fun _ _ _ _ _ hk => by cases hk

theorem owned_raised (h : Owned batches s) : Owned batches (setStage t (.ended .raised none) s) :=
  owned_setStage h fun _ _ _ hk => by cases hk

theorem owned_withLock {wait : Stage} {code : State → State} (h : Owned batches s)
    (hwait : ∀ own, batches[t]? = some own → wait.FromBatch own)
    (hcode : Owned batches (code { s with locked := true })) : Owned batches (withLock t wait code s) := by
  unfold withLock
  split
  · exact hcode
  · exact owned_setStage (owned_same h rfl) hwait

theorem owned_checkGate (h : Owned batches s) (hkeys : ∀ own, batches[t]? = some own → OfBatch own keys rest) :
    Owned batches (checkGate maxConcurrent t keys rest s) := by
  unfold checkGate
  split
  · exact owned_setStage (owned_same h rfl) hkeys
  · exact owned_setStage (owned_same h rfl) hkeys

theorem owned_afterWait {err : Bool} (h : Owned batches s)
    (hkeys : ∀ own, batches[t]? = some own → OfBatch own keys rest) :
    Owned batches (afterWait maxConcurrent t keys rest err s) := by
  unfold afterWait
  split
  · exact owned_raised (owned_same h rfl)
  · exact owned_checkGate h hkeys

theorem owned_relock {err : Bool} (h : Owned batches s)
    (hkeys : ∀ own, batches[t]? = some own → OfBatch own keys rest) :
    Owned batches (relock maxConcurrent t keys rest err s) :=
  owned_withLock h hkeys (owned_afterWait (owned_same h rfl) hkeys)

theorem owned_leaveBody {raised : Bool} (h : Owned batches s)
    (hrest : ∀ own, batches[t]? = some own → rest <:+ own) : Owned batches (leaveBody t rest raised s) := by
  cases raised with
  | true => exact owned_raised h
  | false => exact owned_setStage h hrest

theorem owned_doRelease {raised : Bool} (h : Owned batches s)
    (hkeys : ∀ own, batches[t]? = some own → OfBatch own keys rest) :
    Owned batches (doRelease t keys rest raised s) :=
  owned_leaveBody (owned_same h rfl) fun own hown => (hkeys own hown).rest_suffix

theorem leaveLock_tasks (t : ℕ) (thrown : Bool) (s : State) : (leaveLock t thrown s).tasks = s.tasks := by
  unfold leaveLock
  cases thrown <;> rfl

/-- The task keeps its keys, cut off or running. -/
theorem owned_holding {s' : State} {stage : Stage} (h : Owned batches s)
    (hkeys : ∀ own, batches[t]? = some own → OfBatch own keys rest)
    (hstage : stage = .running (some keys) ∨ stage = .ended .raised (some keys)) {f : Task → Task}
    (hf : ∀ task, (f task).stage = stage) (htasks : s'.tasks = s.tasks.modify t f) : Owned batches s' := by
  refine owned_modify h htasks fun own task hown _ => ?_
  rw [hf]
  rcases hstage with rfl | rfl
  · exact fun k hk => ⟨rest, Option.some.inj hk ▸ hkeys own hown⟩
  · exact fun k hk => ⟨rest, Option.some.inj hk ▸ hkeys own hown⟩

theorem owned_resumeTask {task : Task} (h : Owned batches s) (htask : s.tasks[t]? = some task) :
    Owned batches (resumeTask maxConcurrent t task s) := by
  have hown : ∀ own, batches[t]? = some own → task.stage.FromBatch own := fun own hown =>
    h.stages t own task hown htask
  have hleft : ∀ thrown, Owned batches (leaveLock t thrown s) := fun thrown =>
    owned_same h (leaveLock_tasks t thrown s)
  unfold resumeTask
  split
  next rest hstage =>
    rw [hstage] at hown
    split
    · exact owned_raised h
    · cases rest with
      | nil => exact owned_setStage h fun _ _ _ hk => by cases hk
      | cons batch rest =>
          dsimp only
          unfold acquire
          split
          next hbypass => exact owned_setStage (owned_idle h) fun own ho => ⟨batch, hown own ho, hbypass⟩
          next hbypass =>
            have hkeys : ∀ own, batches[t]? = some own → OfBatch own batch.keys rest := fun own ho =>
              ⟨batch, hown own ho, Bool.eq_false_iff.mpr hbypass, fun key => List.mem_toFinset⟩
            exact owned_withLock (owned_idle h) hkeys (owned_checkGate (owned_same (owned_idle h) rfl) hkeys)
  next keys rest hstage =>
    rw [hstage] at hown
    split
    · exact owned_relock (owned_idle (owned_same h rfl)) hown
    · exact owned_relock (owned_idle (owned_same h rfl)) hown
    · exact h
  next keys rest hstage =>
    rw [hstage] at hown
    split
    · split
      · exact owned_raised (hleft true)
      · exact owned_checkGate (owned_idle (hleft false)) hown
    · exact owned_raised (hleft true)
    · exact h
  next keys rest err hstage =>
    rw [hstage] at hown
    split
    · split
      · exact owned_relock (owned_idle (hleft true)) hown
      · exact owned_afterWait (owned_idle (hleft false)) hown
    · exact owned_relock (owned_idle (hleft true)) hown
    · exact h
  next keys rest raised hstage =>
    rw [hstage] at hown
    split
    · split
      · exact owned_holding (hleft true) hown (.inr rfl) (fun _ => rfl) rfl
      · exact owned_doRelease (owned_holding (hleft false) hown (.inl rfl) (fun _ => rfl) rfl) hown
    · exact owned_holding (hleft true) hown (.inr rfl) (fun _ => rfl) rfl
    · exact h
  next => exact h

theorem owned_finishBody {task : Task} {raised : Bool} (h : Owned batches s) (htask : s.tasks[t]? = some task) :
    Owned batches (finishBody t task raised s) := by
  have hown : ∀ own, batches[t]? = some own → task.stage.FromBatch own := fun own hown =>
    h.stages t own task hown htask
  unfold finishBody
  split
  next rest hstage =>
    rw [hstage] at hown
    refine owned_leaveBody (owned_idle h) fun own ho => ?_
    obtain ⟨batch, hsuffix, -⟩ := hown own ho
    exact (List.suffix_cons batch rest).trans hsuffix
  next keys rest hstage =>
    rw [hstage] at hown
    have hrun : Owned batches (run t (some keys) s) := owned_holding h hown (.inl rfl) (fun _ => rfl) rfl
    exact owned_withLock hrun hown (owned_doRelease (owned_same hrun rfl) hown)
  next => exact h

theorem owned_cancelTask (h : Owned batches s) (task : Task) : Owned batches (cancelTask t task s) := by
  unfold cancelTask
  split
  · exact owned_same h rfl
  · split
    · exact owned_same h rfl
    · split
      · exact h
      · exact owned_modify h rfl fun _ _ _ hstage => hstage

/-- The batches that an action brings. -/
def Action.spawned : Action → List (List Batch)
  | .spawn batches => [batches]
  | _ => []

theorem owned_step (h : Owned batches s) (a : Action) : Owned (batches ++ a.spawned) (step maxConcurrent s a) := by
  have htask : ∀ (t : ℕ) (f : Task → State), (∀ task, s.tasks[t]? = some task → Owned batches (f task)) →
      Owned (batches ++ []) (match s.tasks[t]? with | some task => f task | none => s) := by
    intro t f hf
    rw [List.append_nil]
    split
    next task htask => exact hf task htask
    next => exact h
  cases a with
  | spawn own =>
      refine ⟨by simp [step, Action.spawned, h.length], fun i own' task hown' htask' => ?_⟩
      rcases Nat.lt_or_ge i batches.length with hlt | hge
      · rw [List.getElem?_append_left hlt] at hown'
        have hold : s.tasks[i]? = some task := by
          rw [← htask']
          exact (List.getElem?_append_left (h.length ▸ hlt)).symm
        exact h.stages i own' task hown' hold
      · have hi : i = batches.length := by
          have := (List.getElem?_eq_some_iff.mp hown').1
          simp [Action.spawned] at this
          omega
        subst hi
        simp [Action.spawned] at hown'
        simp [step, ← h.length] at htask'
        subst hown' htask'
        exact List.suffix_refl _
  | cancel t => exact htask t _ fun task _ => owned_cancelTask h task
  | resume t => exact htask t _ fun task ht => owned_resumeTask h ht
  | finishWork t raised => exact htask t _ fun task ht => owned_finishBody h ht

theorem owned_run (acts : List Action) : ∀ {batches : List (List Batch)} {s : State}, Owned batches s →
    Owned (batches ++ acts.flatMap Action.spawned) (Runs.run (step maxConcurrent) s acts) := by
  induction acts with
  | nil => exact fun h => by simpa using h
  | cons a acts ih =>
      intro batches s h
      rw [List.flatMap_cons, ← List.append_assoc]
      exact ih (owned_step h a)

theorem owned_start : Owned [] start := ⟨rfl, fun _ _ _ hown => by cases hown⟩

end Owned

/-! ## The gate -/

/-- The task is inside the gate with these keys. -/
def Inside (s : State) (t : ℕ) (keys : Finset Key) : Prop := ∃ stage, stageOf s t = some stage ∧ stage.held = some keys

/-- The task is left waiting in `acquire`, for keys: its future is pending. -/
def Blocked (s : State) (t : ℕ) (keys : Finset Key) : Prop :=
  (∃ rest, stageOf s t = some (.waiting keys rest) ∧ (t, .pending) ∈ s.waiters) ∨
    ((∃ rest, stageOf s t = some (.lockAcquire keys rest)) ∨ ∃ rest err, stageOf s t = some (.relock keys rest err)) ∧
      (t, .pending) ∈ s.lockWaiters

/-- With tasks that were given these batches: what a task holds or waits for are the keys of one of its
batches, the batches inside are disjoint and not too many, the gate knows them exactly, no task waits
without need, and nothing stays behind. -/
structure Safe (maxConcurrent : ℕ) (batches : List (List Batch)) (s : State) : Prop where
  owned : Owned batches s
  disjoint : ∀ t t' keys keys', t ≠ t' → Inside s t keys → Inside s t' keys' → Disjoint keys keys'
  bounded : (inside s).length ≤ maxConcurrent
  union : ∀ x, x ∈ s.inFlight ↔ ∃ t keys, Inside s t keys ∧ x ∈ keys
  counted : s.active = (inside s).length
  blocked : ∀ t keys, Blocked s t keys → Shut maxConcurrent keys s.inFlight s.active
  /-- a task that was woken enters where the gate is open -/
  granted : ∀ t keys rest, s.tasks[t]? = some ⟨.waiting keys rest, false⟩ →
    futureOf t s.waiters = some .resolved → ¬Shut maxConcurrent keys s.inFlight s.active →
      stageOf (step maxConcurrent s (.resume t)) t = some (.working (some keys) rest)
  drained : (∀ t stage, stageOf s t = some stage → ∃ how keys, stage = .ended how keys) →
    s.inFlight = ∅ ∧ s.active = 0

theorem inside_iff {keys : Finset Key} : keys ∈ inside s ↔ ∃ t, Inside s t keys := by
  rw [inside, List.mem_filterMap]
  constructor
  · rintro ⟨task, htask, hheld⟩
    obtain ⟨t, ht⟩ := List.mem_iff_getElem?.mp htask
    exact ⟨t, task.stage, congrArg (Option.map Task.stage) ht, hheld⟩
  · rintro ⟨t, stage, hstage, hheld⟩
    obtain ⟨task, htask, rfl⟩ := Option.map_eq_some_iff.mp hstage
    exact ⟨task, List.mem_of_getElem? htask, hheld⟩

theorem AtRest.disjoint (h : AtRest maxConcurrent s) {t t' : ℕ} {keys keys' : Finset Key} (hlt : t < t')
    (ht : Inside s t keys) (ht' : Inside s t' keys') : Disjoint keys keys' := by
  obtain ⟨stage, hstage, hheld⟩ := ht
  obtain ⟨stage', hstage', hheld'⟩ := ht'
  obtain ⟨task, htask, rfl⟩ := Option.map_eq_some_iff.mp hstage
  obtain ⟨task', htask', rfl⟩ := Option.map_eq_some_iff.mp hstage'
  obtain ⟨hi, rfl⟩ := List.getElem?_eq_some_iff.mp htask
  obtain ⟨hi', rfl⟩ := List.getElem?_eq_some_iff.mp htask'
  have hpair := List.pairwise_filterMap.mp h.inv.passing.disjoint
  exact List.pairwise_iff_getElem.mp hpair t t' hi hi' hlt keys hheld keys' hheld'

/-- A task with the lock enters where the gate is open. -/
theorem relock_granted {keys : Finset Key} (h : Active maxConcurrent s t none) (hlocked : s.locked = false)
    (hopen : ¬Shut maxConcurrent keys s.inFlight s.active) (rest : List Batch) :
    stageOf (relock maxConcurrent t keys rest false s) t = some (.working (some keys) rest) := by
  have hgrant : relock maxConcurrent t keys rest false s = setStage t (.working (some keys) rest)
      (unlock { s with locked := true, inFlight := s.inFlight ∪ keys, active := s.active + 1 }) := by
    rw [relock, withLock_free hlocked h.inv.lock]
    exact if_neg hopen
  have hm : Moves s (setStage t (.working (some keys) rest)
      (unlock { s with locked := true, inFlight := s.inFlight ∪ keys, active := s.active + 1 }))
      t (.running none) (.working (some keys) rest) := moves_modify h.runs (fun _ => rfl) rfl
  rw [hgrant]
  exact hm.target

theorem safe_of_atRest {batches : List (List Batch)} (h : AtRest maxConcurrent s) (howned : Owned batches s) :
    Safe maxConcurrent batches s := by
  constructor
  · exact howned
  · intro t t' keys keys' hne ht ht'
    rcases Nat.lt_or_gt_of_ne hne with hlt | hlt
    · exact h.disjoint hlt ht ht'
    · exact (h.disjoint hlt ht' ht).symm
  · exact h.inv.passing.bounded
  · intro x
    rw [h.inv.passing.union]
    constructor
    · rintro ⟨keys, hmem, hx⟩
      obtain ⟨t, ht⟩ := inside_iff.mp hmem
      exact ⟨t, keys, ht, hx⟩
    · rintro ⟨t, keys, ht, hx⟩
      exact ⟨keys, inside_iff.mpr ⟨t, ht⟩, hx⟩
  · exact h.inv.passing.counted
  · rintro t keys (⟨rest, ht, hmem⟩ | ⟨-, hmem⟩)
    · exact h.inv.blocked t keys rest ht hmem
    · rw [h.inv.lock] at hmem
      exact absurd hmem List.not_mem_nil
  · intro t keys rest htask hfuture hopen
    have hstage : stageOf s t = some (.waiting keys rest) := by
      rw [stageOf, htask]
      rfl
    have hrun : step maxConcurrent s (.resume t) =
        relock maxConcurrent t keys rest false (run t none { s with waiters := leave t s.waiters }) := by
      simp only [step, htask, resumeTask, hfuture]
    rw [hrun]
    exact relock_granted (h.wake hstage) h.unlocked hopen rest
  · intro hended
    have hempty : inside s = [] := by
      refine List.eq_nil_iff_forall_not_mem.mpr fun keys hmem => ?_
      obtain ⟨t, stage, hstage, hheld⟩ := inside_iff.mp hmem
      obtain ⟨how, keys', rfl⟩ := hended t stage hstage
      have hnone : keys' = none := h.inv.stages t _ hstage
      exact Option.some_ne_none keys (hheld.symm.trans hnone)
    constructor
    · refine Finset.eq_empty_of_forall_notMem fun x hx => ?_
      obtain ⟨keys, hmem, -⟩ := (h.inv.passing.union x).mp hx
      rw [hempty] at hmem
      cases hmem
    · rw [h.inv.passing.counted, hempty]
      rfl

/-- **The gate is safe** in every run: it excludes batches that share a key, and leaves nothing behind. -/
theorem entityKeyGate_safe (maxConcurrent : ℕ) (acts : List Action) :
    Safe maxConcurrent (acts.flatMap Action.spawned) (after maxConcurrent acts) :=
  safe_of_atRest (atRest_after maxConcurrent acts) (owned_run acts owned_start)

end EntityKeyGate

end Khora
