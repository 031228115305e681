import Mathlib.Data.List.Induction
import Mathlib.Order.Lattice

/-!
# Greedy selection

A greedy selection picks one element after the other, each with regard to those it has picked. A loop that
keeps a summary of these in step picks the same.

* `firstMax_spec` — the scan for a larger value finds the first of the greatest.
* `greedy_of_summary` — a summary that is kept in step gives the same selection.
* `mem_picks` — what holds of every pick holds of every place of the selection.
-/

namespace Greedy

/-! ## The first of the greatest -/

section FirstMax

variable {X F : Type*} [LinearOrder F]

/-- One element of the scan; only a larger value replaces the best one. -/
def better (value : X → F) (best : Option X) (x : X) : Option X :=
  match best with
  | none => some x
  | some b => if value b < value x then some x else some b

def firstMax (value : X → F) (xs : List X) : Option X := xs.foldl (better value) none

theorem firstMax_concat (value : X → F) (xs : List X) (x : X) :
    firstMax value (xs ++ [x]) = better value (firstMax value xs) x := by
  rw [firstMax, List.foldl_append]
  rfl

theorem firstMax_eq_none {value : X → F} {xs : List X} : firstMax value xs = none ↔ xs = [] := by
  induction xs using List.reverseRecOn with
  | nil => exact iff_of_true rfl rfl
  | append_singleton xs x _ =>
      rw [firstMax_concat]
      refine iff_of_false ?_ (by simp)
      unfold better
      split
      · exact Option.some_ne_none x
      · split <;> exact Option.some_ne_none _

/-- **The scan finds the first of the greatest**: what stands before it is smaller, and nothing behind it is
greater. -/
theorem firstMax_spec {value : X → F} {xs : List X} {b : X} (h : firstMax value xs = some b) :
    ∃ front rest, xs = front ++ b :: rest ∧ (∀ x ∈ front, value x < value b) ∧
      ∀ x ∈ rest, value x ≤ value b := by
  induction xs using List.reverseRecOn generalizing b with
  | nil => cases h
  | append_singleton xs x ih =>
      rw [firstMax_concat] at h
      cases hbest : firstMax value xs with
      | none =>
          rw [hbest] at h
          obtain rfl : x = b := Option.some.inj h
          rw [firstMax_eq_none.mp hbest]
          exact ⟨[], [], rfl, by simp, by simp⟩
      | some a =>
          obtain ⟨front, rest, rfl, hfront, hrest⟩ := ih hbest
          rw [hbest, better] at h
          by_cases hlt : value a < value x
          · obtain rfl : x = b := by simpa [hlt] using h
            refine ⟨front ++ a :: rest, [], rfl, ?_, by simp⟩
            intro y hy
            rcases List.mem_append.mp hy with hy | hy
            · exact (hfront y hy).trans hlt
            · rcases List.mem_cons.mp hy with rfl | hy
              · exact hlt
              · exact (hrest y hy).trans_lt hlt
          · obtain rfl : a = b := by simpa [hlt] using h
            refine ⟨front, rest ++ [x], by simp, hfront, ?_⟩
            intro y hy
            rcases List.mem_append.mp hy with hy | hy
            · exact hrest y hy
            · rw [List.mem_singleton.mp hy]
              exact not_lt.mp hlt

theorem mem_of_firstMax {value : X → F} {xs : List X} {b : X} (h : firstMax value xs = some b) : b ∈ xs := by
  obtain ⟨front, rest, rfl, -, -⟩ := firstMax_spec h
  simp

/-- The scan looks at the values of the elements only. -/
theorem firstMax_congr {value value' : X → F} {xs : List X} (h : ∀ x ∈ xs, value x = value' x) :
    firstMax value xs = firstMax value' xs := by
  induction xs using List.reverseRecOn with
  | nil => rfl
  | append_singleton xs x ih =>
      have heq := ih fun y hy => h y (List.mem_append_left _ hy)
      rw [firstMax_concat, firstMax_concat, ← heq]
      cases hbest : firstMax value xs with
      | none => rfl
      | some b =>
          have hb := h b (List.mem_append_left _ (mem_of_firstMax hbest))
          simp only [better, hb, h x (by simp)]

/-- In an ascending list the first of the greatest is the least of them. -/
theorem firstMax_le [LinearOrder X] {value : X → F} {xs : List X} {b : X} (hxs : xs.Pairwise (· < ·))
    (h : firstMax value xs = some b) :
    b ∈ xs ∧ ∀ x ∈ xs, value x ≤ value b ∧ (value x = value b → b ≤ x) := by
  obtain ⟨front, rest, rfl, hfront, hrest⟩ := firstMax_spec h
  refine ⟨by simp, fun x hx => ?_⟩
  rcases List.mem_append.mp hx with hx | hx
  · exact ⟨(hfront x hx).le, fun heq => absurd heq (hfront x hx).ne⟩
  · rcases List.mem_cons.mp hx with rfl | hx
    · exact ⟨le_refl _, fun _ => le_refl _⟩
    · have hlt := (List.pairwise_cons.mp (List.pairwise_append.mp hxs).2.1).1 x hx
      exact ⟨hrest x hx, fun _ => hlt.le⟩

end FirstMax

/-! ## Selections -/

section Selection

variable {X S : Type*}

/-- At most `k` more picks. -/
def greedy (pick : List X → Option X) : ℕ → List X → List X
  | 0, selected => selected
  | k + 1, selected =>
      match pick selected with
      | none => selected
      | some x => greedy pick k (selected ++ [x])

/-- The loop with a summary of the selection. -/
def greedyWith (pick : S → Option X) (step : S → X → S) : ℕ → List X → S → List X
  | 0, selected, _ => selected
  | k + 1, selected, s =>
      match pick s with
      | none => selected
      | some x => greedyWith pick step k (selected ++ [x]) (step s x)

/-- **A summary in step gives the same selection.** -/
theorem greedy_of_summary {pick : List X → Option X} {pick' : S → Option X} {step : S → X → S}
    {Summary : List X → S → Prop} (hpick : ∀ selected s, Summary selected s → pick' s = pick selected)
    (hstep : ∀ selected s x, Summary selected s → pick selected = some x → Summary (selected ++ [x]) (step s x))
    (k : ℕ) : ∀ {selected : List X} {s : S}, Summary selected s →
      greedyWith pick' step k selected s = greedy pick k selected := by
  induction k with
  | zero => exact fun _ => rfl
  | succ k ih =>
      intro selected s h
      rw [greedyWith, greedy, hpick selected s h]
      cases hx : pick selected with
      | none => rfl
      | some x => exact ih (hstep selected s x h hx)

/-- The selection goes on from what is selected, and each further element was picked after those in front. -/
theorem mem_picks {pick : List X → Option X} (k : ℕ) : ∀ selected : List X,
    ∃ more, greedy pick k selected = selected ++ more ∧ more.length ≤ k ∧
      ∀ front x rest, more = front ++ x :: rest → pick (selected ++ front) = some x := by
  induction k with
  | zero => exact fun selected => ⟨[], by simp [greedy], le_refl _, fun front x rest h => by simp at h⟩
  | succ k ih =>
      intro selected
      rw [greedy]
      cases hx : pick selected with
      | none => exact ⟨[], by simp, Nat.zero_le _, fun front x rest h => by simp at h⟩
      | some x =>
          obtain ⟨more, hmore, hlen, hpicks⟩ := ih (selected ++ [x])
          refine ⟨x :: more, by simp [hmore], Nat.succ_le_succ hlen, ?_⟩
          intro front y rest heq
          cases front with
          | nil =>
              obtain rfl : x = y := (List.cons.inj heq).1
              rw [List.append_nil]
              exact hx
          | cons z front =>
              obtain ⟨rfl, htail⟩ := List.cons.inj heq
              rw [List.append_cons]
              exact hpicks front y rest htail

/-- A selection that could always go on has made all its picks. -/
theorem length_greedy {pick : List X → Option X} {n : ℕ}
    (hpick : ∀ selected, selected.length < n → pick selected ≠ none) (k : ℕ) :
    ∀ selected : List X, selected.length + k ≤ n → (greedy pick k selected).length = selected.length + k := by
  induction k with
  | zero => exact fun _ _ => rfl
  | succ k ih =>
      intro selected h
      rw [greedy]
      cases hx : pick selected with
      | none => exact absurd hx (hpick selected (by omega))
      | some x =>
          have hlen := ih (selected ++ [x]) (by rw [List.length_append, List.length_singleton]; omega)
          rw [hlen, List.length_append, List.length_singleton]
          omega

end Selection

end Greedy
