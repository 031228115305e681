import Khora.Lib.OrderedDict
import Mathlib.Algebra.BigOperators.Group.List.Basic

/-!
# Sums by key

A dict of numbers that starts at zero under every key, and into which amounts are added.

* `get?_accumulate` — the sum of the amounts of a key, if it has any.
-/

namespace KeyedSum

variable {K M : Type*} [DecidableEq K] [AddCommMonoid M]

/-- `d[k] += amount` -/
def add (d : OrderedDict K M) (e : K × M) : OrderedDict K M := d.set e.1 ((d.get? e.1).getD 0 + e.2)

def accumulate (entries : List (K × M)) : OrderedDict K M := entries.foldl add OrderedDict.empty

/-- The sum of the amounts of a key. -/
def sumAt (k : K) (entries : List (K × M)) : M := ((entries.filter fun e => e.1 = k).map Prod.snd).sum

@[simp] theorem sumAt_nil (k : K) : sumAt k ([] : List (K × M)) = 0 := rfl

theorem sumAt_append (k : K) (entries entries' : List (K × M)) :
    sumAt k (entries ++ entries') = sumAt k entries + sumAt k entries' := by
  rw [sumAt, List.filter_append, List.map_append, List.sum_append, sumAt, sumAt]

theorem sumAt_cons (k : K) (e : K × M) (entries : List (K × M)) :
    sumAt k (e :: entries) = (if e.1 = k then e.2 else 0) + sumAt k entries := by
  by_cases h : e.1 = k
  · simp [sumAt, h]
  · simp [sumAt, h]

theorem sumAt_flatMap {X : Type*} (k : K) (xs : List X) (f : X → List (K × M)) :
    sumAt k (xs.flatMap f) = (xs.map fun x => sumAt k (f x)).sum := by
  induction xs with
  | nil => rfl
  | cons x xs ih => rw [List.flatMap_cons, sumAt_append, ih, List.map_cons, List.sum_cons]

theorem sumAt_of_not_mem {k : K} {entries : List (K × M)} (h : k ∉ entries.map Prod.fst) : sumAt k entries = 0 := by
  have hnil : entries.filter (fun e => e.1 = k) = [] := by
    apply List.filter_eq_nil_iff.mpr
    intro e he hk
    exact h (List.mem_map.mpr ⟨e, he, of_decide_eq_true hk⟩)
  rw [sumAt, hnil, List.map_nil, List.sum_nil]

/-- Keys that come once have their amount. -/
theorem sumAt_of_mem {entries : List (K × M)} (hn : (entries.map Prod.fst).Nodup) {k : K} {v : M}
    (h : (k, v) ∈ entries) : sumAt k entries = v := by
  induction entries with
  | nil => cases h
  | cons e entries ih =>
      rw [List.map_cons, List.nodup_cons] at hn
      rw [sumAt_cons]
      rcases List.mem_cons.mp h with rfl | h
      · rw [if_pos rfl, sumAt_of_not_mem hn.1, add_zero]
      · have hne : e.1 ≠ k := fun heq => hn.1 (heq ▸ List.mem_map_of_mem h)
        rw [if_neg hne, zero_add, ih hn.2 h]

/-- **Under a key is the sum of its amounts**, if it has any. -/
theorem get?_accumulate (entries : List (K × M)) (k : K) :
    (accumulate entries).get? k = if k ∈ entries.map Prod.fst then some (sumAt k entries) else none := by
  induction entries using List.reverseRecOn with
  | nil => rfl
  | append_singleton entries e ih =>
      rw [accumulate, List.foldl_concat, ← accumulate, add, OrderedDict.get?_set, sumAt_append, sumAt_cons,
        sumAt_nil, add_zero]
      by_cases hk : k = e.1
      · subst hk
        rw [if_pos rfl, if_pos (by simp), if_pos rfl, ih]
        by_cases hmem : e.1 ∈ entries.map Prod.fst
        · rw [if_pos hmem, Option.getD_some]
        · rw [if_neg hmem, Option.getD_none, sumAt_of_not_mem hmem]
      · have hiff : k ∈ (entries ++ [e]).map Prod.fst ↔ k ∈ entries.map Prod.fst := by
          simp [hk]
        rw [if_neg hk, ih, if_neg (Ne.symm hk), add_zero, if_congr hiff rfl rfl]

end KeyedSum
