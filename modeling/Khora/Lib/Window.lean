import Mathlib.Data.List.Dedup
import Mathlib.Data.List.Perm.Subperm

/-!
# The last elements of a list

A bounded log keeps the last `n` elements that were put into it.

* `last_append_last` — putting elements into a bounded log, one time after another.
* `spaced_iff` — of a list with at most `n` different elements, the log has no repeats and misses
  none of them at any time, if and only if equal elements are at least `n` places apart.
-/

namespace Window

variable {X : Type*}

def last (n : ℕ) (l : List X) : List X := l.drop (l.length - n)

theorem last_append_last (n : ℕ) (l r : List X) : last n (last n l ++ r) = last n (l ++ r) := by
  unfold last
  have hdrop : l.drop (l.length - n) ++ r = (l ++ r).drop (l.length - n) := by
    rw [List.drop_append_of_le_length (Nat.sub_le _ _)]
  rw [hdrop, List.drop_drop, List.length_drop]
  congr 1
  rw [List.length_append]
  omega

theorem last_of_length_le {n : ℕ} {l : List X} (h : l.length ≤ n) : last n l = l := by
  unfold last
  rw [Nat.sub_eq_zero_of_le h, List.drop_zero]

theorem mem_of_mem_last {n : ℕ} {l : List X} {x : X} (h : x ∈ last n l) : x ∈ l := List.mem_of_mem_drop h

/-- Equal elements are `n` places apart. -/
def Spaced (n : ℕ) (l : List X) : Prop :=
  ∀ i j x, i < j → l[i]? = some x → l[j]? = some x → n ≤ j - i

theorem spaced_of_nodup {l : List X} (h : l.Nodup) (n : ℕ) : Spaced n l := by
  intro i j x hij hi hj
  have hlt := (List.getElem?_eq_some_iff.mp hj).1
  exact absurd (hi.trans hj.symm) (List.nodup_iff_getElem?_ne_getElem?.mp h i j hij hlt)

theorem Spaced.take {n : ℕ} {l : List X} (h : Spaced n l) (m : ℕ) : Spaced n (l.take m) := by
  intro i j x hij hi hj
  have hget : ∀ k : ℕ, (l.take m)[k]? = some x → l[k]? = some x := by
    intro k hk
    rw [List.getElem?_take] at hk
    split at hk
    · exact hk
    · cases hk
  exact h i j x hij (hget i hi) (hget j hj)

theorem Spaced.nodup_last {n : ℕ} {l : List X} (h : Spaced n l) : (last n l).Nodup := by
  rw [List.nodup_iff_getElem?_ne_getElem?]
  intro i j hij hj heq
  unfold last at hj heq
  rw [List.length_drop] at hj
  rw [List.getElem?_drop, List.getElem?_drop] at heq
  have hlt : l.length - n + j < l.length := by omega
  have hx := List.getElem?_eq_getElem hlt
  have hle := h (l.length - n + i) (l.length - n + j) _ (by omega) (heq.trans hx) hx
  omega

variable [DecidableEq X]

/-- A list with at most `n` different elements, of which the last `n` are different. -/
theorem mem_last_of_nodup {n : ℕ} {l : List X} (hn : l.dedup.length ≤ n) (hnodup : (last n l).Nodup) {x : X}
    (hx : x ∈ l) : x ∈ last n l := by
  by_cases hlen : l.length ≤ n
  · rw [last_of_length_le hlen]
    exact hx
  · -- the last `n` are as many as there are different elements
    have hsub : last n l ⊆ l.dedup := fun y hy => List.mem_dedup.mpr (mem_of_mem_last hy)
    have hlast : (last n l).length = n := by
      unfold last
      rw [List.length_drop]
      omega
    have hle : l.dedup.length ≤ (last n l).length := by
      rw [hlast]
      exact hn
    have hperm := (List.subperm_of_subset hnodup hsub).perm_of_length_le hle
    exact hperm.mem_iff.mpr (List.mem_dedup.mpr hx)

theorem dedup_length_take_le (l : List X) (m : ℕ) : (l.take m).dedup.length ≤ l.dedup.length := by
  apply (List.subperm_of_subset (List.nodup_dedup _) _).length_le
  intro x hx
  exact List.mem_dedup.mpr (List.mem_of_mem_take (List.mem_dedup.mp hx))

/-- **The log is without repeats, and misses nothing, at all times.** -/
theorem spaced_iff {n : ℕ} {l : List X} (hn : l.dedup.length ≤ n) :
    (∀ m, (last n (l.take m)).Nodup ∧ ∀ x ∈ l.take m, x ∈ last n (l.take m)) ↔ Spaced n l := by
  constructor
  · intro h i j x hij hi hj
    by_contra hclose
    -- both places are among the last `n` when the second one is put in
    have hnodup := (h (j + 1)).1
    have hjlen : j < l.length := (List.getElem?_eq_some_iff.mp hj).1
    rw [List.nodup_iff_getElem?_ne_getElem?] at hnodup
    have hlen : (l.take (j + 1)).length = j + 1 := by
      rw [List.length_take]
      omega
    have hget : ∀ k, k ≤ j → j + 1 - n ≤ k → (last n (l.take (j + 1)))[k - (j + 1 - n)]? = l[k]? := by
      intro k hk hlo
      unfold last
      rw [List.getElem?_drop, hlen, Nat.add_sub_cancel' hlo, List.getElem?_take, if_pos (by omega)]
    have hsize : (last n (l.take (j + 1))).length = j + 1 - (j + 1 - n) := by
      unfold last
      rw [List.length_drop, hlen]
    apply hnodup (i - (j + 1 - n)) (j - (j + 1 - n)) (by omega) (by omega)
    rw [hget i (by omega) (by omega), hget j (by omega) (by omega), hi, hj]
  · intro h m
    have hnodup := (h.take m).nodup_last
    exact ⟨hnodup, fun x hx => mem_last_of_nodup (Nat.le_trans (dedup_length_take_le l m) hn) hnodup hx⟩

end Window
