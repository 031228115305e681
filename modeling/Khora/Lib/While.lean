import Mathlib.Data.Option.Basic
import Mathlib.Logic.Relation
import Mathlib.Tactic.Common

/-!
# While loops

`while guard: step`, run with fuel.  `Visits` says which states the loop comes to before its guard
is tested.

* `exists_loop_of_measure` — a loop with a bound that every turn lowers ends.
* `invariant_of_visits` — what every turn keeps holds in every state the loop comes to.
* `visits_of_loop` — the state a loop ends in is one it comes to, and its guard is off.
* `loop_eq_none` — a loop that never leaves a set of states with the guard on does not end.
-/

namespace While

variable {S : Type*} (guard : S → Prop) [DecidablePred guard] (step : S → S)

/-- `while guard: step`: `none` if the fuel does not suffice. -/
def loop : ℕ → S → Option S
  | 0, s => if guard s then none else some s
  | n + 1, s => if guard s then loop n (step s) else some s

/-- The states the loop comes to from a state. -/
def Visits : S → S → Prop := Relation.ReflTransGen fun s t => guard s ∧ step s = t

variable {guard step}

theorem loop_of_not {s : S} (h : ¬guard s) (n : ℕ) : loop guard step n s = some s := by
  cases n with
  | zero => exact if_neg h
  | succ n => exact if_neg h

theorem loop_succ_of {s : S} (h : guard s) (n : ℕ) :
    loop guard step (n + 1) s = loop guard step n (step s) := if_pos h

omit [DecidablePred guard] in
/-- **The invariant rule.**  What every turn keeps holds in every state the loop comes to. -/
theorem invariant_of_visits {Inv : S → Prop} (hstep : ∀ s, Inv s → guard s → Inv (step s)) {s t : S}
    (hs : Inv s) (h : Visits guard step s t) : Inv t := by
  induction h with
  | refl => exact hs
  | tail _ hturn ih =>
      obtain ⟨hguard, rfl⟩ := hturn
      exact hstep _ ih hguard

/-- The loop ends in a state it comes to, with the guard off. -/
theorem visits_of_loop {n : ℕ} {s t : S} (h : loop guard step n s = some t) :
    Visits guard step s t ∧ ¬guard t := by
  induction n generalizing s with
  | zero =>
      by_cases hs : guard s
      · rw [loop, if_pos hs] at h
        cases h
      · rw [loop_of_not hs] at h
        cases h
        exact ⟨.refl, hs⟩
  | succ n ih =>
      by_cases hs : guard s
      · rw [loop_succ_of hs] at h
        obtain ⟨hvisits, ht⟩ := ih h
        exact ⟨.head ⟨hs, rfl⟩ hvisits, ht⟩
      · rw [loop_of_not hs] at h
        cases h
        exact ⟨.refl, hs⟩

/-- **A loop ends if every turn lowers a bound.**  The turns may rely on an invariant. -/
theorem exists_loop_of_measure {Inv : S → Prop} (measure : S → ℕ)
    (hstep : ∀ s, Inv s → guard s → Inv (step s))
    (hlower : ∀ s, Inv s → guard s → measure (step s) < measure s) {n : ℕ} {s : S} (hs : Inv s)
    (hn : measure s ≤ n) : ∃ t, loop guard step n s = some t := by
  induction n generalizing s with
  | zero =>
      by_cases hg : guard s
      · have := hlower s hs hg
        omega
      · exact ⟨s, loop_of_not hg 0⟩
  | succ n ih =>
      by_cases hg : guard s
      · have := hlower s hs hg
        rw [loop_succ_of hg]
        exact ih (hstep s hs hg) (by omega)
      · exact ⟨s, loop_of_not hg _⟩

/-- **A loop that does not end.** -/
theorem loop_eq_none {Stuck : S → Prop} (h : ∀ s, Stuck s → guard s ∧ Stuck (step s)) {s : S}
    (hs : Stuck s) (n : ℕ) : loop guard step n s = none := by
  induction n generalizing s with
  | zero => exact if_pos (h s hs).1
  | succ n ih =>
      rw [loop_succ_of (h s hs).1]
      exact ih (h s hs).2

end While
