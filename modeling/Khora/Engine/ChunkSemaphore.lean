import Khora.Lib.Asyncio
import Khora.Lib.Runs
import Mathlib.Algebra.BigOperators.Group.List.Basic
import Mathlib.Algebra.GroupWithZero.Nat

/-!
# The chunk semaphore

`_GlobalChunkSemaphore` counts the chunks in flight. A task of `_process_document` acquires one amount for
each of its windows, works, and releases the amount in a `finally` block. Tasks are cancelled at any wait.

* `atRest_step` — between two tasks that run the lock is free and nobody waits for it.
* `chunkSemaphore_safe` — in every run the tokens are counted, no task waits without need, and none is lost.
-/

namespace Khora

namespace ChunkSemaphore

open Asyncio

/-! ## Tasks -/

inductive Ending where
  | finished
  | raised
  /-- `release` raised for an amount that is not in flight -/
  | underflow
deriving DecidableEq

/-- Where a task is, with the sizes of the windows to come. -/
inductive Stage where
  | ready (windows : List ℕ)
  /-- in `acquire`, at the lock -/
  | lockAcquire (n : ℕ) (rest : List ℕ)
  /-- in `acquire`, at the condition -/
  | waiting (n : ℕ) (rest : List ℕ)
  /-- in `acquire`, woken and at the lock; `err` is a cancellation meanwhile -/
  | relock (n : ℕ) (rest : List ℕ) (err : Bool)
  /-- in the body of the window -/
  | working (n : ℕ) (rest : List ℕ)
  /-- in `release`, at the lock; `raised` is an error of the body -/
  | lockRelease (n : ℕ) (rest : List ℕ) (raised : Bool)
  /-- the task that the loop runs -/
  | running (n : ℕ)
  | ended (how : Ending) (n : ℕ)
deriving DecidableEq

/-- The amount that was returned to the task and that it has not released. -/
def Stage.held : Stage → ℕ
  | .working n _ => n
  | .lockRelease n _ _ => n
  | .running n => n
  | .ended _ n => n
  | _ => 0

structure Task where
  stage : Stage
  /-- `_must_cancel` -/
  mustCancel : Bool
deriving DecidableEq

/-- The semaphore: its count, its lock, its condition; and the tasks. -/
structure State where
  inFlight : ℕ
  locked : Bool
  lockWaiters : Waiters ℕ
  waiters : Waiters ℕ
  tasks : List Task
deriving DecidableEq

def start : State := ⟨0, false, [], [], []⟩

variable (capacity : ℕ)

/-! ## The code between two waits -/

def setStage (t : ℕ) (stage : Stage) (s : State) : State :=
  { s with tasks := s.tasks.modify t fun task => { task with stage := stage } }

/-- `Lock.release` -/
def unlock (s : State) : State := { s with locked := false, lockWaiters := wakeUpFirst s.lockWaiters }

/-- `Lock.acquire`: the code behind it, or a wait in the queue. -/
def withLock (t : ℕ) (wait : Stage) (code : State → State) (s : State) : State :=
  if lockFree s.locked s.lockWaiters then code { s with locked := true }
  else setStage t wait { s with lockWaiters := s.lockWaiters ++ [(t, .pending)] }

/-- The loop of `acquire`, with the lock held. -/
def checkCapacity (t n : ℕ) (rest : List ℕ) (s : State) : State :=
  if capacity < s.inFlight + n then
    setStage t (.waiting n rest) (unlock { s with waiters := s.waiters ++ [(t, .pending)] })
  else setStage t (.working n rest) (unlock { s with inFlight := s.inFlight + n })

/-- `acquire`; the amount is clamped. -/
def acquire (t n : ℕ) (rest : List ℕ) (s : State) : State :=
  withLock t (.lockAcquire (min n capacity) rest) (checkCapacity capacity t (min n capacity) rest) s

/-- The next window, or the end of the loop. -/
def nextWindow (t : ℕ) (windows : List ℕ) (s : State) : State :=
  match windows with
  | [] => setStage t (.ended .finished 0) s
  | n :: rest => acquire capacity t n rest s

/-- `release`, with the lock held; then the next window, or the error of the body. -/
def doRelease (t n : ℕ) (rest : List ℕ) (raised : Bool) (s : State) : State :=
  if s.inFlight < n then setStage t (.ended .underflow n) (unlock s)
  else
    let released := setStage t (.running 0)
      (unlock { s with inFlight := s.inFlight - n, waiters := notifyAll s.waiters })
    if raised then setStage t (.ended .raised 0) released else nextWindow capacity t rest released

def release (t n : ℕ) (rest : List ℕ) (raised : Bool) (s : State) : State :=
  withLock t (.lockRelease n rest raised) (doRelease capacity t n rest raised) s

/-- `Condition.wait` with the lock again: a cancellation notifies another task. -/
def afterWait (t n : ℕ) (rest : List ℕ) (err : Bool) (s : State) : State :=
  if err then setStage t (.ended .raised 0) (unlock { s with waiters := notify 1 s.waiters })
  else checkCapacity capacity t n rest s

def relock (t n : ℕ) (rest : List ℕ) (err : Bool) (s : State) : State :=
  withLock t (.relock n rest err) (afterWait capacity t n rest err) s

/-- A task leaves the queue of the lock: with the lock, or cancelled. -/
def leaveLock (t : ℕ) (thrown : Bool) (s : State) : State :=
  let queue := leave t s.lockWaiters
  if thrown then { s with lockWaiters := if s.locked then queue else wakeUpFirst queue }
  else { s with lockWaiters := queue, locked := true }

/-! ## The event loop -/

inductive Action where
  /-- a task with its windows -/
  | spawn (windows : List ℕ)
  /-- `Task.cancel` -/
  | cancel (t : ℕ)
  /-- the loop runs a task that is ready -/
  | resume (t : ℕ)
  /-- the body of a window is over, with or without an error; a cancellation of what it waits for is one -/
  | finishWork (t : ℕ) (raised : Bool)

/-- The task runs, its cancellation is taken. -/
def run (t n : ℕ) (s : State) : State := { s with tasks := s.tasks.modify t fun _ => ⟨.running n, false⟩ }

/-- A future that is done makes the task ready; a cancelled one, or a cancellation of the task, is thrown. -/
def resumeTask (t : ℕ) (task : Task) (s : State) : State :=
  match task.stage with
  | .ready windows =>
      if task.mustCancel then setStage t (.ended .raised 0) s else nextWindow capacity t windows (run t 0 s)
  | .waiting n rest =>
      match futureOf t s.waiters with
      | some .resolved =>
          relock capacity t n rest task.mustCancel (run t 0 { s with waiters := leave t s.waiters })
      | some .cancelled => relock capacity t n rest true (run t 0 { s with waiters := leave t s.waiters })
      | _ => s
  | .lockAcquire n rest =>
      match futureOf t s.lockWaiters with
      | some .resolved =>
          if task.mustCancel then setStage t (.ended .raised 0) (leaveLock t true s)
          else checkCapacity capacity t n rest (run t 0 (leaveLock t false s))
      | some .cancelled => setStage t (.ended .raised 0) (leaveLock t true s)
      | _ => s
  | .relock n rest err =>
      match futureOf t s.lockWaiters with
      | some .resolved =>
          if task.mustCancel then relock capacity t n rest true (run t 0 (leaveLock t true s))
          else afterWait capacity t n rest err (run t 0 (leaveLock t false s))
      | some .cancelled => relock capacity t n rest true (run t 0 (leaveLock t true s))
      | _ => s
  | .lockRelease n rest raised =>
      match futureOf t s.lockWaiters with
      | some .resolved =>
          -- a cancellation here loses the amount
          if task.mustCancel then setStage t (.ended .raised n) (leaveLock t true s)
          else doRelease capacity t n rest raised (run t n (leaveLock t false s))
      | some .cancelled => setStage t (.ended .raised n) (leaveLock t true s)
      | _ => s
  | _ => s

/-- `Task.cancel`: the future that the task waits for is cancelled, or the next wait of the task. -/
def cancelTask (t : ℕ) (task : Task) (s : State) : State :=
  if (t, .pending) ∈ s.waiters then { s with waiters := cancelFuture t s.waiters }
  else if (t, .pending) ∈ s.lockWaiters then { s with lockWaiters := cancelFuture t s.lockWaiters }
  else
    match task.stage with
    | .ended _ _ => s
    | _ => { s with tasks := s.tasks.modify t fun task => { task with mustCancel := true } }

/-- The body of the window is over, and the `finally` block runs. -/
def finishBody (t : ℕ) (task : Task) (raised : Bool) (s : State) : State :=
  match task.stage with
  | .working n rest => release capacity t n rest raised (run t n s)
  | _ => s

def step (s : State) : Action → State
  | .spawn windows => { s with tasks := s.tasks ++ [⟨.ready windows, false⟩] }
  | .cancel t =>
      match s.tasks[t]? with
      | some task => cancelTask t task s
      | none => s
  | .resume t =>
      match s.tasks[t]? with
      | some task => resumeTask capacity t task s
      | none => s
  | .finishWork t raised =>
      match s.tasks[t]? with
      | some task => finishBody capacity t task raised s
      | none => s

/-! ## The tokens of the tasks -/

def stageOf (s : State) (t : ℕ) : Option Stage := (s.tasks[t]?).map Task.stage

/-- The amounts that were returned and not released. -/
def total (s : State) : ℕ := (s.tasks.map fun task => task.stage.held).sum

/-- One task goes from a stage to another. -/
structure Moves (s s' : State) (t : ℕ) (old stage : Stage) : Prop where
  source : stageOf s t = some old
  target : stageOf s' t = some stage
  others : ∀ i, i ≠ t → stageOf s' i = stageOf s i
  total : total s' + old.held = total s + stage.held

theorem sum_held_modify {tasks : List Task} {t : ℕ} {task : Task} (h : tasks[t]? = some task) (f : Task → Task) :
    ((tasks.modify t f).map fun task => task.stage.held).sum + task.stage.held =
      (tasks.map fun task => task.stage.held).sum + (f task).stage.held := by
  induction tasks generalizing t with
  | nil => cases h
  | cons task' tasks ih =>
      cases t with
      | zero =>
          cases h
          simp only [List.modify_zero_cons, List.map_cons, List.sum_cons]
          omega
      | succ t =>
          have hrest := ih (by simpa using h)
          simp only [List.modify_succ_cons, List.map_cons, List.sum_cons]
          omega

theorem moves_modify {s s' : State} {t : ℕ} {old stage : Stage} (h : stageOf s t = some old) {f : Task → Task}
    (hf : ∀ task, (f task).stage = stage) (htasks : s'.tasks = s.tasks.modify t f) : Moves s s' t old stage := by
  obtain ⟨task, htask, rfl⟩ := Option.map_eq_some_iff.mp h
  constructor
  · exact h
  · rw [stageOf, htasks, List.getElem?_modify_eq, htask]
    exact congrArg some (hf task)
  · intro i hi
    rw [stageOf, htasks, List.getElem?_modify_ne f _ hi.symm]
    rfl
  · have hsum := sum_held_modify htask f
    rw [hf] at hsum
    rw [ChunkSemaphore.total, htasks]
    exact hsum

/-! ## The invariant -/

/-- No task waits for the lock, and the amounts that wait were clamped. -/
def Stage.Ok : Stage → Prop
  | .waiting n _ => n ≤ capacity
  | .lockAcquire _ _ => False
  | .relock _ _ _ => False
  | .lockRelease _ _ _ => False
  | .ended how n => how ≠ .underflow ∧ n = 0
  | _ => True

structure Inv (s : State) : Prop where
  counted : s.inFlight = total s
  bounded : s.inFlight ≤ capacity
  stages : ∀ t stage, stageOf s t = some stage → stage.Ok capacity
  queue : ∀ t, t ∈ s.waiters.map Prod.fst ↔ ∃ n rest, stageOf s t = some (.waiting n rest)
  blocked : ∀ t n rest, stageOf s t = some (.waiting n rest) → (t, .pending) ∈ s.waiters →
    capacity < s.inFlight + n
  lock : s.lockWaiters = []

variable {capacity} {s s' : State} {t : ℕ}

/-- **A move** keeps the invariant if the count follows the amount, and a task waits for what does not fit. -/
theorem Inv.move {old stage : Stage} (h : Inv capacity s) (hm : Moves s s' t old stage) (hok : stage.Ok capacity)
    (hcount : s'.inFlight + old.held = s.inFlight + stage.held) (hbound : s'.inFlight ≤ capacity)
    (hkeys : ∀ i, i ∈ s'.waiters.map Prod.fst ↔
      (i ≠ t ∧ i ∈ s.waiters.map Prod.fst) ∨ (i = t ∧ ∃ n rest, stage = .waiting n rest))
    (hpending : ∀ i, i ≠ t → (i, .pending) ∈ s'.waiters → (i, .pending) ∈ s.waiters ∧ s.inFlight ≤ s'.inFlight)
    (hself : ∀ n rest, stage = .waiting n rest → capacity < s'.inFlight + n) (hlock : s'.lockWaiters = []) :
    Inv capacity s' := by
  constructor
  · have hcounted := h.counted
    have htotal := hm.total
    omega
  · exact hbound
  · intro i stage' hi
    by_cases heq : i = t
    · subst heq
      cases hm.target.symm.trans hi
      exact hok
    · exact h.stages i stage' ((hm.others i heq).symm.trans hi)
  · intro i
    rw [hkeys]
    by_cases heq : i = t
    · subst heq
      rw [hm.target]
      simp
    · rw [hm.others i heq, h.queue i]
      simp [heq]
  · intro i n rest hi hmem
    by_cases heq : i = t
    · subst heq
      cases hm.target.symm.trans hi
      exact hself n rest rfl
    · obtain ⟨hold, hle⟩ := hpending i heq hmem
      have := h.blocked i n rest ((hm.others i heq).symm.trans hi) hold
      omega
  · exact hlock

/-- The task runs, with the tokens it holds, and no other one. -/
structure Active (capacity : ℕ) (s : State) (t n : ℕ) : Prop where
  inv : Inv capacity s
  runs : stageOf s t = some (.running n)
  alone : ∀ i, i ≠ t → ∀ k, stageOf s i ≠ some (.running k)

/-- No task runs: the lock is free. -/
structure AtRest (capacity : ℕ) (s : State) : Prop where
  inv : Inv capacity s
  unlocked : s.locked = false
  idle : ∀ i k, stageOf s i ≠ some (.running k)

theorem Active.rest {n : ℕ} {stage : Stage} (h : Active capacity s t n) (hm : Moves s s' t (.running n) stage)
    (hstage : ∀ k, stage ≠ .running k) (hinv : Inv capacity s') (hlocked : s'.locked = false) :
    AtRest capacity s' := by
  refine ⟨hinv, hlocked, fun i k hi => ?_⟩
  by_cases heq : i = t
  · subst heq
    exact hstage k (Option.some.inj (hm.target.symm.trans hi))
  · exact h.alone i heq k ((hm.others i heq).symm.trans hi)

theorem Active.start {n : ℕ} {old : Stage} (h : AtRest capacity s) (hm : Moves s s' t old (.running n))
    (hinv : Inv capacity s') : Active capacity s' t n := by
  refine ⟨hinv, hm.target, fun i hi k hk => ?_⟩
  exact h.idle i k ((hm.others i hi).symm.trans hk)

/-! ## What the code keeps -/

/-- A stage that is no wait at the condition. -/
def Stage.Awake (stage : Stage) : Prop := ∀ n rest, stage ≠ .waiting n rest

/-- A move of a task that neither starts nor ends to wait at the condition. -/
theorem Inv.move_awake {old stage : Stage} (h : Inv capacity s) (hm : Moves s s' t old stage)
    (hold : old.Awake) (hstage : stage.Awake) (hok : stage.Ok capacity)
    (hcount : s'.inFlight + old.held = s.inFlight + stage.held) (hbound : s'.inFlight ≤ capacity)
    (hkeys : s'.waiters.map Prod.fst = s.waiters.map Prod.fst)
    (hpending : ∀ i, (i, .pending) ∈ s'.waiters → (i, .pending) ∈ s.waiters ∧ s.inFlight ≤ s'.inFlight)
    (hlock : s'.lockWaiters = []) : Inv capacity s' := by
  refine h.move hm hok hcount hbound (fun i => ?_) (fun i _ => hpending i)
    (fun n rest heq => absurd heq (hstage n rest)) hlock
  have hnot : t ∉ s.waiters.map Prod.fst := by
    rw [h.queue]
    rintro ⟨n, rest, hw⟩
    exact hold n rest (Option.some.inj (hm.source.symm.trans hw))
  rw [hkeys]
  constructor
  · intro hi
    refine Or.inl ⟨?_, hi⟩
    rintro rfl
    exact hnot hi
  · rintro (⟨-, hi⟩ | ⟨-, n, rest, heq⟩)
    · exact hi
    · exact absurd heq (hstage n rest)

theorem unlock_lockWaiters (h : s.lockWaiters = []) : (unlock s).lockWaiters = [] := by
  show wakeUpFirst s.lockWaiters = []
  rw [h]
  rfl

theorem withLock_free (hlocked : s.locked = false) (hlock : s.lockWaiters = []) (wait : Stage)
    (code : State → State) : withLock t wait code s = code { s with locked := true } := by
  rw [withLock, if_pos]
  simp [lockFree, hlocked, hlock]

theorem Active.lock {n : ℕ} (h : Active capacity s t n) : Active capacity { s with locked := true } t n :=
  ⟨⟨h.inv.counted, h.inv.bounded, h.inv.stages, h.inv.queue, h.inv.blocked, h.inv.lock⟩, h.runs, h.alone⟩

/-- A running task that holds nothing ends. -/
theorem Active.end {how : Ending} (h : Active capacity s t 0) (hhow : how ≠ .underflow)
    (htasks : s'.tasks = s.tasks) (hinFlight : s'.inFlight = s.inFlight)
    (hkeys : s'.waiters.map Prod.fst = s.waiters.map Prod.fst)
    (hpending : ∀ i, (i, .pending) ∈ s'.waiters → (i, .pending) ∈ s.waiters) (hlocked : s'.locked = false)
    (hlock : s'.lockWaiters = []) : AtRest capacity (setStage t (.ended how 0) s') := by
  have hm : Moves s (setStage t (.ended how 0) s') t (.running 0) (.ended how 0) :=
    moves_modify h.runs (fun _ => rfl) (by rw [← htasks]; rfl)
  refine h.rest hm nofun (h.inv.move_awake hm nofun nofun ⟨hhow, rfl⟩ ?_ ?_ hkeys ?_ hlock) hlocked
  · show s'.inFlight + 0 = s.inFlight + 0
    rw [hinFlight]
  · show s'.inFlight ≤ capacity
    rw [hinFlight]
    exact h.inv.bounded
  · exact fun i hi => ⟨hpending i hi, Nat.le_of_eq hinFlight.symm⟩

theorem checkCapacity_atRest {n : ℕ} (h : Active capacity s t 0) (hn : n ≤ capacity) (rest : List ℕ) :
    AtRest capacity (checkCapacity capacity t n rest s) := by
  unfold checkCapacity
  have hlock := unlock_lockWaiters h.inv.lock
  split
  · rename_i hfull
    have hm : Moves s (setStage t (.waiting n rest) (unlock { s with waiters := s.waiters ++ [(t, .pending)] }))
        t (.running 0) (.waiting n rest) := moves_modify h.runs (fun _ => rfl) rfl
    refine h.rest hm nofun (h.inv.move hm hn rfl h.inv.bounded (fun i => ?_) (fun i hi hmem => ?_) ?_ hlock) rfl
    · show i ∈ (s.waiters ++ [(t, Future.pending)]).map Prod.fst ↔ _
      by_cases heq : i = t
      · simp [heq]
      · simp [heq]
    · refine ⟨(List.mem_append.mp hmem).resolve_right fun hmem => hi ?_, Nat.le_refl _⟩
      exact congrArg Prod.fst (List.mem_singleton.mp hmem)
    · rintro n' rest' ⟨⟩
      exact hfull
  · rename_i hfits
    have hm : Moves s (setStage t (.working n rest) (unlock { s with inFlight := s.inFlight + n }))
        t (.running 0) (.working n rest) := moves_modify h.runs (fun _ => rfl) rfl
    refine h.rest hm nofun (h.inv.move_awake hm nofun nofun trivial rfl (Nat.le_of_not_lt hfits) rfl ?_ hlock) rfl
    exact fun i hi => ⟨hi, Nat.le_add_right _ _⟩

theorem nextWindow_atRest (h : Active capacity s t 0) (hlocked : s.locked = false) (windows : List ℕ) :
    AtRest capacity (nextWindow capacity t windows s) := by
  cases windows with
  | nil => exact h.end nofun rfl rfl rfl (fun _ hi => hi) hlocked h.inv.lock
  | cons n rest =>
      show AtRest capacity (acquire capacity t n rest s)
      rw [acquire, withLock_free hlocked h.inv.lock]
      exact checkCapacity_atRest h.lock (Nat.min_le_right n capacity) rest

/-- What a task holds is in flight. -/
theorem Active.held_le {n : ℕ} (h : Active capacity s t n) : n ≤ s.inFlight := by
  have hm : Moves s (run t 0 s) t (.running n) (.running 0) := moves_modify h.runs (fun _ => rfl) rfl
  have htotal : total (run t 0 s) + n = total s := hm.total
  rw [h.inv.counted, ← htotal]
  exact Nat.le_add_left n _

theorem doRelease_atRest {n : ℕ} (h : Active capacity s t n) (rest : List ℕ) (raised : Bool) :
    AtRest capacity (doRelease capacity t n rest raised s) := by
  have hle := h.held_le
  rw [doRelease, if_neg (Nat.not_lt.mpr hle)]
  have hactive : Active capacity (setStage t (.running 0)
      (unlock { s with inFlight := s.inFlight - n, waiters := notifyAll s.waiters })) t 0 := by
    have hm : Moves s (setStage t (.running 0)
        (unlock { s with inFlight := s.inFlight - n, waiters := notifyAll s.waiters }))
        t (.running n) (.running 0) := moves_modify h.runs (fun _ => rfl) rfl
    refine ⟨h.inv.move_awake hm nofun nofun trivial ?_ ?_ (map_fst_notify _ _) ?_
      (unlock_lockWaiters h.inv.lock), hm.target, fun i hi k hk => ?_⟩
    · show s.inFlight - n + n = s.inFlight + 0
      omega
    · exact Nat.le_trans (Nat.sub_le _ _) h.inv.bounded
    -- everyone who waits is notified
    · exact fun i hi => absurd hi (not_pending_notifyAll s.waiters i)
    · exact h.alone i hi k ((hm.others i hi).symm.trans hk)
  cases raised with
  | true => exact hactive.end nofun rfl rfl rfl (fun _ hi => hi) rfl hactive.inv.lock
  | false => exact nextWindow_atRest hactive rfl rest

theorem release_atRest {n : ℕ} (h : Active capacity s t n) (hlocked : s.locked = false) (rest : List ℕ)
    (raised : Bool) : AtRest capacity (release capacity t n rest raised s) := by
  rw [release, withLock_free hlocked h.inv.lock]
  exact doRelease_atRest h.lock rest raised

theorem relock_atRest {n : ℕ} (h : Active capacity s t 0) (hlocked : s.locked = false) (hn : n ≤ capacity)
    (rest : List ℕ) (err : Bool) : AtRest capacity (relock capacity t n rest err s) := by
  rw [relock, withLock_free hlocked h.inv.lock, afterWait]
  cases err with
  | true =>
      exact h.end nofun rfl rfl (map_fst_notify _ _) (fun _ hi => pending_of_notify hi) rfl
        (unlock_lockWaiters h.inv.lock)
  | false => exact checkCapacity_atRest h.lock hn rest

/-- A task with the lock gets what fits. -/
theorem relock_granted {n : ℕ} (h : Active capacity s t 0) (hlocked : s.locked = false)
    (hfits : s.inFlight + n ≤ capacity) (rest : List ℕ) :
    stageOf (relock capacity t n rest false s) t = some (.working n rest) := by
  have hgrant : relock capacity t n rest false s =
      setStage t (.working n rest) (unlock { s with locked := true, inFlight := s.inFlight + n }) := by
    rw [relock, withLock_free hlocked h.inv.lock]
    exact if_neg (Nat.not_lt.mpr hfits)
  have hm : Moves s (setStage t (.working n rest) (unlock { s with locked := true, inFlight := s.inFlight + n }))
      t (.running 0) (.working n rest) := moves_modify h.runs (fun _ => rfl) rfl
  rw [hgrant]
  exact hm.target

/-- The task waits for the amount or holds it, and the windows are to come. -/
def Asks (s : State) (t n : ℕ) (rest : List ℕ) : Prop :=
  stageOf s t = some (.waiting n rest) ∨ stageOf s t = some (.working n rest)

theorem checkCapacity_asks {k : ℕ} {old : Stage} (h : stageOf s t = some old) (rest : List ℕ) :
    Asks (checkCapacity capacity t k rest s) t k rest := by
  unfold checkCapacity
  split
  · have hm : Moves s (setStage t (.waiting k rest) (unlock { s with waiters := s.waiters ++ [(t, .pending)] }))
        t old (.waiting k rest) := moves_modify h (fun _ => rfl) rfl
    exact Or.inl hm.target
  · have hm : Moves s (setStage t (.working k rest) (unlock { s with inFlight := s.inFlight + k }))
        t old (.working k rest) := moves_modify h (fun _ => rfl) rfl
    exact Or.inr hm.target

/-- The amount of a window is the smaller one of its size and the capacity. -/
theorem acquire_asks {old : Stage} (h : stageOf s t = some old) (hlocked : s.locked = false)
    (hlock : s.lockWaiters = []) (n : ℕ) (rest : List ℕ) :
    Asks (acquire capacity t n rest s) t (min n capacity) rest := by
  rw [acquire, withLock_free hlocked hlock]
  exact checkCapacity_asks (s := { s with locked := true }) h rest

theorem release_asks {k : ℕ} (h : Active capacity s t k) (hlocked : s.locked = false) (n : ℕ)
    (rest : List ℕ) : Asks (release capacity t k (n :: rest) false s) t (min n capacity) rest := by
  rw [release, withLock_free hlocked h.inv.lock, doRelease, if_neg (Nat.not_lt.mpr h.lock.held_le)]
  have hm : Moves s (setStage t (.running 0) (unlock
      { s with locked := true, inFlight := s.inFlight - k, waiters := notifyAll s.waiters }))
      t (.running k) (.running 0) := moves_modify h.runs (fun _ => rfl) rfl
  exact acquire_asks hm.target rfl (unlock_lockWaiters h.inv.lock) n rest

/-! ## Steps and runs -/

theorem AtRest.activate {n : ℕ} {old : Stage} (h : AtRest capacity s) (hold : stageOf s t = some old)
    (hawake : old.Awake) (hheld : old.held = n) : Active capacity (run t n s) t n := by
  have hm : Moves s (run t n s) t old (.running n) := moves_modify hold (fun _ => rfl) rfl
  refine Active.start h hm (h.inv.move_awake hm hawake nofun trivial ?_ h.inv.bounded rfl ?_ h.inv.lock)
  · show s.inFlight + old.held = s.inFlight + n
    rw [hheld]
  · exact fun i hi => ⟨hi, Nat.le_refl _⟩

/-- A task that was woken runs, and leaves the queue. -/
theorem AtRest.wake {n : ℕ} {rest : List ℕ} (h : AtRest capacity s) (hold : stageOf s t = some (.waiting n rest)) :
    Active capacity (run t 0 { s with waiters := leave t s.waiters }) t 0 := by
  have hm : Moves s (run t 0 { s with waiters := leave t s.waiters }) t (.waiting n rest)
      (.running 0) := moves_modify hold (fun _ => rfl) rfl
  refine Active.start h hm (h.inv.move hm trivial rfl h.inv.bounded (fun i => ?_) (fun i _ hmem => ?_) nofun
    h.inv.lock)
  · show i ∈ (leave t s.waiters).map Prod.fst ↔ _
    rw [mem_map_leave]
    simp [and_comm]
  · exact ⟨(mem_leave.mp hmem).1, Nat.le_refl _⟩

theorem resumeTask_atRest (h : AtRest capacity s) {task : Task} (htask : s.tasks[t]? = some task) :
    AtRest capacity (resumeTask capacity t task s) := by
  have hstage : stageOf s t = some task.stage := congrArg (Option.map Task.stage) htask
  have hok := h.inv.stages t task.stage hstage
  unfold resumeTask
  cases hst : task.stage with
  | ready windows =>
      rw [hst] at hstage
      have hactive : Active capacity (run t 0 s) t 0 := h.activate hstage nofun rfl
      cases task.mustCancel with
      | true =>
          have hm : Moves s (setStage t (.ended .raised 0) s) t (.ready windows) (.ended .raised 0) :=
            moves_modify hstage (fun _ => rfl) rfl
          refine ⟨h.inv.move_awake hm nofun nofun ⟨nofun, rfl⟩ rfl h.inv.bounded rfl
            (fun i hi => ⟨hi, Nat.le_refl _⟩) h.inv.lock, h.unlocked, fun i k hk => ?_⟩
          by_cases heq : i = t
          · subst heq
            cases hm.target.symm.trans hk
          · exact h.idle i k ((hm.others i heq).symm.trans hk)
      | false => exact nextWindow_atRest hactive h.unlocked windows
  | waiting n rest =>
      rw [hst] at hstage hok
      have hactive := h.wake hstage
      cases hfuture : futureOf t s.waiters with
      | none => simpa [hfuture] using h
      | some future =>
          cases future with
          | pending => simpa [hfuture] using h
          | resolved => simpa [hfuture] using relock_atRest hactive h.unlocked hok rest task.mustCancel
          | cancelled => simpa [hfuture] using relock_atRest hactive h.unlocked hok rest true
  | working n rest => exact h
  | running n => exact h
  | ended how n => exact h
  | lockAcquire n rest =>
      rw [hst] at hok
      exact hok.elim
  | relock n rest err =>
      rw [hst] at hok
      exact hok.elim
  | lockRelease n rest raised =>
      rw [hst] at hok
      exact hok.elim

theorem finishBody_atRest (h : AtRest capacity s) {task : Task} (htask : s.tasks[t]? = some task)
    (raised : Bool) : AtRest capacity (finishBody capacity t task raised s) := by
  have hstage : stageOf s t = some task.stage := congrArg (Option.map Task.stage) htask
  unfold finishBody
  split
  · rename_i n rest hworking
    rw [hworking] at hstage
    exact release_atRest (h.activate hstage nofun rfl) h.unlocked rest raised
  · exact h

theorem cancelTask_atRest (h : AtRest capacity s) (task : Task) : AtRest capacity (cancelTask t task s) := by
  have hflag : AtRest capacity
      { s with tasks := s.tasks.modify t fun task => { task with mustCancel := true } } := by
    have hstages : ∀ i, stageOf { s with tasks := s.tasks.modify t fun task => { task with mustCancel := true } } i =
        stageOf s i := by
      intro i
      show ((s.tasks.modify t _)[i]?).map Task.stage = (s.tasks[i]?).map Task.stage
      rw [List.getElem?_modify]
      cases s.tasks[i]? with
      | none => rfl
      | some task' => by_cases hi : t = i <;> simp [hi]
    have htotal : total { s with tasks := s.tasks.modify t fun task => { task with mustCancel := true } } =
        total s := by
      cases htask : s.tasks[t]? with
      | none =>
          show ((s.tasks.modify t _).map _).sum = _
          rw [List.modify_eq_self (List.getElem?_eq_none_iff.mp htask)]
          rfl
      | some task' =>
          have hsum := sum_held_modify htask fun task => { task with mustCancel := true }
          exact Nat.add_right_cancel hsum
    refine ⟨⟨h.inv.counted.trans htotal.symm, h.inv.bounded, ?_, ?_, ?_, h.inv.lock⟩, h.unlocked, ?_⟩
    · intro i stage hi
      exact h.inv.stages i stage ((hstages i).symm.trans hi)
    · intro i
      rw [hstages]
      exact h.inv.queue i
    · intro i n rest hi hmem
      exact h.inv.blocked i n rest ((hstages i).symm.trans hi) hmem
    · intro i k hk
      exact h.idle i k ((hstages i).symm.trans hk)
  unfold cancelTask
  split
  · refine ⟨⟨h.inv.counted, h.inv.bounded, h.inv.stages, fun i => ?_, ?_, h.inv.lock⟩, h.unlocked, h.idle⟩
    · show i ∈ (cancelFuture t s.waiters).map Prod.fst ↔ _
      rw [map_fst_cancelFuture]
      exact h.inv.queue i
    · intro i n rest hi hmem
      exact h.inv.blocked i n rest hi (pending_of_cancelFuture hmem)
  · split
    · rename_i hmem
      rw [h.inv.lock] at hmem
      exact absurd hmem List.not_mem_nil
    · split
      · exact h
      · exact hflag

theorem spawn_atRest (h : AtRest capacity s) (windows : List ℕ) :
    AtRest capacity { s with tasks := s.tasks ++ [⟨.ready windows, false⟩] } := by
  have hstages : ∀ i stage, stageOf { s with tasks := s.tasks ++ [⟨.ready windows, false⟩] } i = some stage ↔
      stageOf s i = some stage ∨ i = s.tasks.length ∧ stage = .ready windows := by
    intro i stage
    show ((s.tasks ++ [_])[i]?).map Task.stage = some stage ↔ (s.tasks[i]?).map Task.stage = some stage ∨ _
    rcases Nat.lt_trichotomy i s.tasks.length with hlt | rfl | hlt
    · rw [List.getElem?_append_left hlt]
      exact (or_iff_left fun hand => absurd hand.1 (Nat.ne_of_lt hlt)).symm
    · rw [List.getElem?_concat_length, List.getElem?_eq_none (Nat.le_refl _)]
      simp [eq_comm]
    · rw [List.getElem?_eq_none (by rw [List.length_append, List.length_singleton]; omega),
        List.getElem?_eq_none (Nat.le_of_lt hlt)]
      simp [Nat.ne_of_gt hlt]
  have hkept : ∀ i stage, (∀ windows, stage ≠ .ready windows) →
      (stageOf { s with tasks := s.tasks ++ [⟨.ready windows, false⟩] } i = some stage ↔
        stageOf s i = some stage) := by
    intro i stage hne
    rw [hstages]
    exact or_iff_left fun hand => hne windows hand.2
  refine ⟨⟨?_, h.inv.bounded, ?_, ?_, ?_, h.inv.lock⟩, h.unlocked, ?_⟩
  · show s.inFlight = ((s.tasks ++ [_]).map fun task : Task => task.stage.held).sum
    rw [List.map_append, List.sum_append, h.inv.counted]
    rfl
  · intro i stage hi
    rcases (hstages i stage).mp hi with hi | ⟨-, rfl⟩
    · exact h.inv.stages i stage hi
    · trivial
  · intro i
    have hiff : (∃ n rest, stageOf { s with tasks := s.tasks ++ [⟨.ready windows, false⟩] } i =
        some (.waiting n rest)) ↔ ∃ n rest, stageOf s i = some (.waiting n rest) :=
      exists_congr fun n => exists_congr fun rest => hkept i _ fun _ heq => by cases heq
    rw [hiff]
    exact h.inv.queue i
  · intro i n rest hi hmem
    exact h.inv.blocked i n rest ((hkept i _ fun _ heq => by cases heq).mp hi) hmem
  · intro i k hk
    exact h.idle i k ((hkept i _ fun _ heq => by cases heq).mp hk)

/-- **Between two waits** the lock is free and nobody waits for it. -/
theorem atRest_step (h : AtRest capacity s) (a : Action) : AtRest capacity (step capacity s a) := by
  cases a with
  | spawn windows => exact spawn_atRest h windows
  | cancel t =>
      unfold step
      cases htask : s.tasks[t]? with
      | none => simpa [htask] using h
      | some task => simpa [htask] using cancelTask_atRest h task
  | resume t =>
      unfold step
      cases htask : s.tasks[t]? with
      | none => simpa [htask] using h
      | some task => simpa [htask] using resumeTask_atRest h htask
  | finishWork t raised =>
      unfold step
      cases htask : s.tasks[t]? with
      | none => simpa [htask] using h
      | some task => simpa [htask] using finishBody_atRest h htask raised

theorem atRest_start : AtRest capacity start := by
  refine ⟨⟨rfl, Nat.zero_le _, nofun, fun t => ?_, nofun, rfl⟩, rfl, nofun⟩
  exact iff_of_false List.not_mem_nil fun ⟨n, rest, h⟩ => by cases h

/-- The state after the actions. -/
def after (capacity : ℕ) (acts : List Action) : State := Runs.run (step capacity) start acts

theorem atRest_after (capacity : ℕ) (acts : List Action) : AtRest capacity (after capacity acts) :=
  @Runs.run_of_step _ _ (step capacity) (AtRest capacity) (fun _ a h => atRest_step h a) start atRest_start acts

/-! ## The semaphore -/

/-- The task is left waiting in `acquire`, for an amount: its future is pending. -/
def Blocked (s : State) (t n : ℕ) : Prop :=
  (∃ rest, stageOf s t = some (.waiting n rest) ∧ (t, .pending) ∈ s.waiters) ∨
    ((∃ rest, stageOf s t = some (.lockAcquire n rest)) ∨ ∃ rest err, stageOf s t = some (.relock n rest err)) ∧
      (t, .pending) ∈ s.lockWaiters

/-- The tokens are counted, they are handed out when they are there, and they come back. -/
structure Safe (capacity : ℕ) (s : State) : Prop where
  counted : s.inFlight = total s
  bounded : s.inFlight ≤ capacity
  /-- a task asks for its first window, and for the next one after it has released -/
  asked : ∀ t n rest, (s.tasks[t]? = some ⟨.ready (n :: rest), false⟩ →
      Asks (step capacity s (.resume t)) t (min n capacity) rest) ∧
    ∀ k cancelled, s.tasks[t]? = some ⟨.working k (n :: rest), cancelled⟩ →
      Asks (step capacity s (.finishWork t false)) t (min n capacity) rest
  noUnderflow : ∀ t n, stageOf s t ≠ some (.ended .underflow n)
  /-- a task waits only for what does not fit, and another one holds tokens -/
  blocked : ∀ t n, Blocked s t n → capacity < s.inFlight + n ∧
    ∃ i ≠ t, ∃ stage, stageOf s i = some stage ∧ 0 < stage.held
  /-- a task that is not blocked is ready: it gets what fits when it runs -/
  granted : ∀ t n rest, s.tasks[t]? = some ⟨.waiting n rest, false⟩ →
    futureOf t s.waiters = some .resolved → s.inFlight + n ≤ capacity →
      stageOf (step capacity s (.resume t)) t = some (.working n rest)
  drained : (∀ t stage, stageOf s t = some stage → ∃ how n, stage = .ended how n) → s.inFlight = 0

theorem exists_held (h : 0 < total s) : ∃ i stage, stageOf s i = some stage ∧ 0 < stage.held := by
  by_contra hnone
  refine Nat.ne_of_gt h (List.sum_eq_zero fun n hn => ?_)
  obtain ⟨task, htask, rfl⟩ := List.mem_map.mp hn
  obtain ⟨i, hi⟩ := List.mem_iff_getElem?.mp htask
  by_contra hne
  exact hnone ⟨i, task.stage, congrArg (Option.map Task.stage) hi, Nat.pos_of_ne_zero hne⟩

theorem safe_of_atRest (h : AtRest capacity s) : Safe capacity s := by
  constructor
  · exact h.inv.counted
  · exact h.inv.bounded
  · intro t n rest
    constructor
    · intro htask
      have hstage : stageOf s t = some (.ready (n :: rest)) := congrArg (Option.map Task.stage) htask
      have hrun : step capacity s (.resume t) = acquire capacity t n rest (run t 0 s) := by
        simp only [step, htask, resumeTask, Bool.false_eq_true, if_false, nextWindow]
      rw [hrun]
      exact acquire_asks (h.activate hstage nofun rfl).runs h.unlocked h.inv.lock n rest
    · intro k cancelled htask
      have hstage : stageOf s t = some (.working k (n :: rest)) := congrArg (Option.map Task.stage) htask
      have hrun : step capacity s (.finishWork t false) = release capacity t k (n :: rest) false (run t k s) := by
        simp only [step, htask, finishBody]
      rw [hrun]
      exact release_asks (h.activate hstage nofun rfl) h.unlocked n rest
  · intro t n ht
    exact (h.inv.stages t _ ht).1 rfl
  · rintro t n (⟨rest, ht, hmem⟩ | ⟨-, hmem⟩)
    · have hfull := h.inv.blocked t n rest ht hmem
      have hn : n ≤ capacity := h.inv.stages t _ ht
      refine ⟨hfull, ?_⟩
      obtain ⟨i, stage, hi, hpos⟩ := exists_held (s := s) (by
        rw [← h.inv.counted]
        omega)
      refine ⟨i, ?_, stage, hi, hpos⟩
      rintro rfl
      cases ht.symm.trans hi
      exact absurd hpos (Nat.lt_irrefl 0)
    · rw [h.inv.lock] at hmem
      exact absurd hmem List.not_mem_nil
  · intro t n rest htask hfuture hfits
    have hstage : stageOf s t = some (.waiting n rest) := by
      rw [stageOf, htask]
      rfl
    have hrun : step capacity s (.resume t) =
        relock capacity t n rest false (run t 0 { s with waiters := leave t s.waiters }) := by
      simp only [step, htask, resumeTask, hfuture]
    rw [hrun]
    exact relock_granted (h.wake hstage) h.unlocked hfits rest
  · intro hended
    rw [h.inv.counted]
    by_contra hne
    obtain ⟨i, stage, hi, hpos⟩ := exists_held (Nat.pos_of_ne_zero hne)
    obtain ⟨how, n, rfl⟩ := hended i stage hi
    have hzero : n = 0 := (h.inv.stages i _ hi).2
    exact absurd hzero (Nat.pos_iff_ne_zero.mp hpos)

/-- **The semaphore is safe** in every run, and loses no wakeup. -/
theorem chunkSemaphore_safe (capacity : ℕ) (acts : List Action) : Safe capacity (after capacity acts) :=
  safe_of_atRest (atRest_after capacity acts)

end ChunkSemaphore

end Khora
