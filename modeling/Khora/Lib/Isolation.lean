import Khora.Lib.Runs

/-!
# Runs that are shared

The actions of a run are taken by several parties, and each is answered.  A party cannot tell the
others' actions apart from none when its answers are those of the run of its own actions.

* `answers_eq_alone` — the two-run rule: a relation of the shared state and the party's own that its
  actions keep, with equal answers, and the others' actions keep on the one side.
-/

namespace Isolation

open Runs

variable {S A R : Type*} (step : S → A → S × R)

/-- The state after an action. -/
def next (s : S) (a : A) : S := (step s a).1

/-- The answers to the actions of a party, in the run of all. -/
def answers (mine : A → Bool) : S → List A → List R
  | _, [] => []
  | s, a :: acts =>
    if mine a then (step s a).2 :: answers mine (next step s a) acts
    else answers mine (next step s a) acts

variable {step}

theorem answers_cons_mine {mine : A → Bool} {s : S} {a : A} {acts : List A} (h : mine a = true) :
    answers step mine s (a :: acts) = (step s a).2 :: answers step mine (next step s a) acts :=
  if_pos h

theorem answers_cons_other {mine : A → Bool} {s : S} {a : A} {acts : List A} (h : ¬mine a = true) :
    answers step mine s (a :: acts) = answers step mine (next step s a) acts := if_neg h

/-- **The two-run rule.** -/
theorem answers_eq_alone {mine : A → Bool} {guard : S → A → Prop} {Rel : S → S → Prop}
    (hown : ∀ s t a, mine a = true → guard s a → Rel s t →
      Rel (next step s a) (next step t a) ∧ (step s a).2 = (step t a).2)
    (hother : ∀ s t a, ¬mine a = true → guard s a → Rel s t → Rel (next step s a) t)
    {acts : List A} {s t : S} (hrel : Rel s t) (h : Guarded (next step) guard s acts) :
    answers step mine s acts = answers step mine t (acts.filter mine) := by
  induction acts generalizing s t with
  | nil => rfl
  | cons a acts ih =>
    by_cases ha : mine a = true
    · obtain ⟨hrel', hanswer⟩ := hown s t a ha h.1 hrel
      rw [List.filter_cons_of_pos ha, answers_cons_mine ha, answers_cons_mine ha, hanswer,
        ih hrel' h.2]
    · rw [List.filter_cons_of_neg ha, answers_cons_other ha]
      exact ih (hother s t a ha h.1 hrel) h.2

end Isolation
