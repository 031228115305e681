import Mathlib.Data.List.Nodup

/-!
# Queues of waiting tasks

A lock and a condition of an event loop keep a queue of futures, one for each task that waits.  A task runs
until its next wait; a future that is resolved or cancelled makes its task ready.

* `not_pending_notifyAll` — who is notified waits no more.
* `pending_of_notify` — a notification makes no one wait.
-/

namespace Asyncio

inductive Future where
  | pending
  | resolved
  | cancelled
deriving DecidableEq

variable {T : Type} [DecidableEq T]

/-- The tasks that wait, in order. -/
abbrev Waiters (T : Type) := List (T × Future)

instance lawfulWaiter : LawfulBEq (ℕ × Future) := inferInstance

/-- `Lock.acquire` does not wait. -/
def lockFree (locked : Bool) (queue : Waiters T) : Bool :=
  !locked && queue.all fun w => decide (w.2 = .cancelled)

/-- `Lock._wake_up_first` -/
def wakeUpFirst : Waiters T → Waiters T
  | (t, .pending) :: queue => (t, .resolved) :: queue
  | queue => queue

/-- `Condition._notify` -/
def notify : ℕ → Waiters T → Waiters T
  | n + 1, (t, .pending) :: queue => (t, .resolved) :: notify n queue
  | n + 1, w :: queue => w :: notify (n + 1) queue
  | _, queue => queue

def notifyAll (queue : Waiters T) : Waiters T := notify queue.length queue

/-- The future of a task. -/
def futureOf (t : T) (queue : Waiters T) : Option Future := queue.lookup t

/-- A pending future is cancelled. -/
def cancelFuture (t : T) (queue : Waiters T) : Waiters T :=
  queue.map fun w => if w.1 = t ∧ w.2 = .pending then (t, .cancelled) else w

/-- A task leaves the queue. -/
def leave (t : T) (queue : Waiters T) : Waiters T := queue.filter fun w => w.1 ≠ t

omit [DecidableEq T] in
@[simp] theorem map_fst_notify (n : ℕ) (queue : Waiters T) :
    (notify n queue).map Prod.fst = queue.map Prod.fst := by
  induction queue generalizing n with
  | nil => cases n <;> rfl
  | cons w queue ih =>
      obtain ⟨t, f⟩ := w
      cases n with
      | zero => rfl
      | succ n => cases f <;> simp [notify, ih]

omit [DecidableEq T] in
/-- A notification makes no one wait. -/
theorem pending_of_notify {n : ℕ} {queue : Waiters T} {t : T} (h : (t, .pending) ∈ notify n queue) :
    (t, .pending) ∈ queue := by
  induction queue generalizing n with
  | nil => cases n <;> exact h
  | cons w queue ih =>
      obtain ⟨t', f⟩ := w
      cases n with
      | zero => exact h
      | succ n =>
          cases f with
          | pending =>
              rcases List.mem_cons.mp h with heq | h
              · cases heq
              · exact List.mem_cons_of_mem _ (ih h)
          | resolved =>
              rcases List.mem_cons.mp h with heq | h
              · cases heq
              · exact List.mem_cons_of_mem _ (ih h)
          | cancelled =>
              rcases List.mem_cons.mp h with heq | h
              · cases heq
              · exact List.mem_cons_of_mem _ (ih h)

omit [DecidableEq T] in
theorem not_pending_notify {n : ℕ} {queue : Waiters T} (hn : queue.length ≤ n) (t : T) :
    (t, .pending) ∉ notify n queue := by
  induction queue generalizing n with
  | nil => cases n <;> exact List.not_mem_nil
  | cons w queue ih =>
      obtain ⟨t', f⟩ := w
      cases n with
      | zero => exact absurd hn (Nat.not_succ_le_zero _)
      | succ n =>
          have hle : queue.length ≤ n := Nat.le_of_succ_le_succ hn
          cases f with
          | pending =>
              rintro (_ | ⟨_, h⟩)
              exact ih hle h
          | resolved =>
              rintro (_ | ⟨_, h⟩)
              exact ih (Nat.le_succ_of_le hle) h
          | cancelled =>
              rintro (_ | ⟨_, h⟩)
              exact ih (Nat.le_succ_of_le hle) h

omit [DecidableEq T] in
/-- **Who is notified** waits no more. -/
theorem not_pending_notifyAll (queue : Waiters T) (t : T) : (t, .pending) ∉ notifyAll queue :=
  not_pending_notify (Nat.le_refl _) t

@[simp] theorem map_fst_cancelFuture (t : T) (queue : Waiters T) :
    (cancelFuture t queue).map Prod.fst = queue.map Prod.fst := by
  rw [cancelFuture, List.map_map]
  apply List.map_congr_left
  intro w _
  simp only [Function.comp_apply]
  split
  · rename_i h
    exact h.1.symm
  · rfl

theorem pending_of_cancelFuture {t t' : T} {queue : Waiters T} (h : (t', .pending) ∈ cancelFuture t queue) :
    (t', .pending) ∈ queue := by
  obtain ⟨w, hw, heq⟩ := List.mem_map.mp h
  split at heq
  · cases heq
  · exact heq ▸ hw

theorem mem_leave {t : T} {queue : Waiters T} {w : T × Future} : w ∈ leave t queue ↔ w ∈ queue ∧ w.1 ≠ t := by
  simp [leave]

theorem mem_map_leave {t t' : T} {queue : Waiters T} :
    t' ∈ (leave t queue).map Prod.fst ↔ t' ∈ queue.map Prod.fst ∧ t' ≠ t := by
  constructor
  · intro h
    obtain ⟨w, hw, rfl⟩ := List.mem_map.mp h
    exact ⟨List.mem_map_of_mem (mem_leave.mp hw).1, (mem_leave.mp hw).2⟩
  · rintro ⟨h, hne⟩
    obtain ⟨w, hw, rfl⟩ := List.mem_map.mp h
    exact List.mem_map_of_mem (mem_leave.mpr ⟨hw, hne⟩)

end Asyncio
