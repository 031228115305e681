import Khora.Lib.DisjointSets
import Khora.Lib.Grouping

/-!
# Union-find with a `find` that rewrites parents

`find` returns the root of an element and may point the elements it passes nearer to the root; `union` points the one
root at the other. A program is an instance once its `find` is known to return the root and to change none.

* `rootOf_repoint` — an element may point at any element of its set that is nearer to the root.
* `find_halve` — path halving is such a find.
* `unionAll_same` — after all unions the sets are the connected elements.
* `groupAll_eq` — grouping by `find` groups by connection.
-/

namespace FindUnion

open DisjointSets

variable {α : Type*}

/-! ## The length of a path -/

/-- Following the parents from `x` ends in the root `r` after `k` steps. -/
inductive RootIn (parent : α → α) : ℕ → α → α → Prop where
  | root {r : α} (h : parent r = r) : RootIn parent 0 r r
  | step {k : ℕ} {x r : α} (h : parent x ≠ x) (hr : RootIn parent k (parent x) r) : RootIn parent (k + 1) x r

section Path

variable {parent : α → α} {j k : ℕ} {x y z r s : α}

theorem RootIn.rootOf (h : RootIn parent k x r) : RootOf parent x r := by
  induction h with
  | root h => exact .root h
  | step h _ ih => exact .step h ih

theorem exists_rootIn (h : RootOf parent x r) : ∃ k, RootIn parent k x r := by
  induction h with
  | root h => exact ⟨0, .root h⟩
  | step h _ ih =>
      obtain ⟨k, hk⟩ := ih
      exact ⟨k + 1, .step h hk⟩

/-- An element has one distance from its root. -/
theorem RootIn.steps_unique (h : RootIn parent k x r) : ∀ {j s}, RootIn parent j x s → k = j := by
  induction h with
  | root h =>
      intro j s hs
      cases hs with
      | root _ => rfl
      | step hne _ => exact absurd h hne
  | step h _ ih =>
      intro j s hs
      cases hs with
      | root hroot => exact absurd hroot h
      | step _ hs => rw [ih hs]

/-- The elements on a path, without the root: there are as many as steps, each nearer to the root than the last. -/
theorem RootIn.exists_path [DecidableEq α] (h : RootIn parent k x r) :
    ∃ T : Finset α, T.card = k ∧ ∀ y ∈ T, parent y ≠ y ∧ ∃ j ≤ k, RootIn parent j y r := by
  induction h with
  | root h => exact ⟨∅, rfl, by simp⟩
  | @step k x r h hr ih =>
      obtain ⟨T, hcard, hT⟩ := ih
      have hx : x ∉ T := by
        intro hmem
        obtain ⟨-, j, hj, hjr⟩ := hT x hmem
        have := (RootIn.step h hr).steps_unique hjr
        omega
      refine ⟨insert x T, by rw [Finset.card_insert_of_notMem hx, hcard], ?_⟩
      intro y hy
      rcases Finset.mem_insert.mp hy with rfl | hy
      · exact ⟨h, k + 1, le_rfl, .step h hr⟩
      · obtain ⟨hne, j, hj, hjr⟩ := hT y hy
        exact ⟨hne, j, by omega, hjr⟩

variable [DecidableEq α]

/-- A path that starts nearer to the root than `x` does not meet `x`. -/
theorem RootIn.update (hx : RootIn parent k x r) (hy : RootIn parent j y s) (hlt : j < k) :
    RootIn (Function.update parent x z) j y s := by
  induction hy with
  | @root y h =>
      have hne : y ≠ x := by
        rintro rfl
        have := hx.steps_unique (.root h)
        omega
      exact .root (by rw [Function.update_of_ne hne]; exact h)
  | @step j y s h hs ih =>
      have hne : y ≠ x := by
        rintro rfl
        have := hx.steps_unique (.step h hs)
        omega
      apply RootIn.step
      · rw [Function.update_of_ne hne]
        exact h
      · rw [Function.update_of_ne hne]
        exact ih (by omega)

/-- **An element may point at any element that is nearer to its root.** -/
theorem rootOf_repoint (hx : RootIn parent k x r) (hz : RootIn parent j z r) (hlt : j < k) (hy : RootOf parent y s) :
    RootOf (Function.update parent x z) y s := by
  have hz' : RootOf (Function.update parent x z) z r := (hx.update hz hlt).rootOf
  have hzx : z ≠ x := by
    rintro rfl
    have := hx.steps_unique hz
    omega
  induction hy with
  | @root y h =>
      have hne : y ≠ x := by
        rintro rfl
        have := hx.steps_unique (.root h)
        omega
      exact .root (by rw [Function.update_of_ne hne]; exact h)
  | @step y s h hs ih =>
      by_cases hyx : y = x
      · subst hyx
        obtain rfl : r = s := hx.rootOf.unique (.step h hs)
        apply RootOf.step
        · rw [Function.update_self]
          exact hzx
        · rw [Function.update_self]
          exact hz'
      · apply RootOf.step
        · rw [Function.update_of_ne hyx]
          exact h
        · rw [Function.update_of_ne hyx]
          exact ih

end Path

/-! ## Forests over a finite set -/

variable [DecidableEq α]

/-- Every element has a root, and only elements of `S` have other elements above them, of `S` too. -/
structure Forest (S : Finset α) (parent : α → α) : Prop where
  grounded : Grounded parent
  inside : ∀ x, parent x ≠ x → x ∈ S ∧ parent x ∈ S

omit [DecidableEq α] in
theorem forest_id (S : Finset α) : Forest S id where
  grounded x := ⟨x, .root rfl⟩
  inside _ h := absurd rfl h

section Forest

variable {S : Finset α} {parent : α → α} {k : ℕ} {x z r : α}

theorem Forest.le_card (h : Forest S parent) (hr : RootIn parent k x r) : k ≤ S.card := by
  obtain ⟨T, hcard, hT⟩ := hr.exists_path
  rw [← hcard]
  exact Finset.card_le_card fun y hy => (h.inside y (hT y hy).1).1

omit [DecidableEq α] in
theorem Forest.root_mem (h : Forest S parent) (hx : x ∈ S) (hr : RootOf parent x r) : r ∈ S := by
  induction hr with
  | root _ => exact hx
  | step hne _ ih => exact ih (h.inside _ hne).2

/-- Pointing an element nearer to its root keeps the forest. -/
theorem Forest.repoint (h : Forest S parent) (hx : x ∈ S) (hz : z ∈ S)
    (hkept : ∀ y s, RootOf parent y s → RootOf (Function.update parent x z) y s) :
    Forest S (Function.update parent x z) where
  grounded y := by
    obtain ⟨s, hs⟩ := h.grounded y
    exact ⟨s, hkept y s hs⟩
  inside y hy := by
    by_cases hyx : y = x
    · subst hyx
      rw [Function.update_self]
      exact ⟨hx, hz⟩
    · rw [Function.update_of_ne hyx] at hy ⊢
      exact h.inside y hy

end Forest

/-! ## Finds -/

/-- `find` returns the root, and the parents it leaves have the same roots. -/
structure Found (S : Finset α) (parent : α → α) (x : α) (result : α × (α → α)) : Prop where
  root : RootOf parent x result.1
  forest : Forest S result.2
  kept : ∀ y s, RootOf parent y s → RootOf result.2 y s

/-- The find is right on every forest. -/
def Finds (S : Finset α) (find : (α → α) → α → α × (α → α)) : Prop :=
  ∀ parent, Forest S parent → ∀ x, Found S parent x (find parent x)

/-- Path halving: `while p[i] != i: p[i] = p[p[i]]; i = p[i]`. -/
def halve : ℕ → (α → α) → α → α × (α → α)
  | 0, parent, x => (x, parent)
  | fuel + 1, parent, x =>
      if parent x = x then (x, parent)
      else
        let parent' := Function.update parent x (parent (parent x))
        halve fuel parent' (parent' x)

section Finds

variable {S : Finset α}

omit [DecidableEq α] in
theorem found_root {parent : α → α} (h : Forest S parent) {x : α} (hx : parent x = x) : Found S parent x (x, parent) :=
  ⟨.root hx, h, fun _ _ hy => hy⟩

theorem found_halve (fuel : ℕ) : ∀ {parent : α → α}, Forest S parent → ∀ {k x r}, RootIn parent k x r → k ≤ fuel →
    Found S parent x (halve fuel parent x) := by
  induction fuel with
  | zero =>
      intro parent h k x r hr hk
      cases hr with
      | root hx => exact found_root h hx
      | step _ _ => omega
  | succ fuel ih =>
      intro parent h k x r hr hk
      rw [halve]
      by_cases hx : parent x = x
      · rw [if_pos hx]
        exact found_root h hx
      rw [if_neg hx]
      -- the grandparent is nearer to the root
      obtain ⟨j, hj, hgrand⟩ : ∃ j < k, RootIn parent j (parent (parent x)) r := by
        cases hr with
        | root hroot => exact absurd hroot hx
        | @step k _ _ _ hr =>
            cases hr with
            | root hroot => exact ⟨0, by omega, by rw [hroot]; exact .root hroot⟩
            | @step k _ _ _ hr => exact ⟨k, by omega, hr⟩
      have hgrand_mem : parent (parent x) ∈ S := by
        by_cases hpp : parent (parent x) = parent x
        · rw [hpp]
          exact (h.inside x hx).2
        · exact (h.inside _ hpp).2
      have hkept : ∀ y s, RootOf parent y s →
          RootOf (Function.update parent x (parent (parent x))) y s :=
        fun y s hy => rootOf_repoint hr hgrand hj hy
      have hforest := h.repoint (h.inside x hx).1 hgrand_mem hkept
      simp only [Function.update_self]
      have hfound := ih hforest (hr.update hgrand hj) (by omega)
      have hroot : r = (halve fuel (Function.update parent x (parent (parent x))) (parent (parent x))).1 :=
        (hr.update hgrand hj).rootOf.unique hfound.root
      exact ⟨by rw [← hroot]; exact hr.rootOf, hfound.forest, fun y s hy => hfound.kept y s (hkept y s hy)⟩

/-- **Path halving is a find.** -/
theorem find_halve {n : ℕ} (hn : S.card ≤ n) : Finds S (halve n) := by
  intro parent h x
  obtain ⟨r, hr⟩ := h.grounded x
  obtain ⟨k, hk⟩ := exists_rootIn hr
  exact found_halve n h hk ((h.le_card hk).trans hn)

end Finds

/-! ## Unions -/

section Union

variable (find : (α → α) → α → α × (α → α))

/-- `ra, rb = find(a), find(b); if ra != rb: p[ra] = rb` -/
def union (parent : α → α) (a b : α) : α → α :=
  let found := find parent a
  let found' := find found.2 b
  if found.1 ≠ found'.1 then Function.update found'.2 found.1 found'.1 else found'.2

/-- The parents after the unions of all pairs, from singletons. -/
def unionAll (pairs : List (α × α)) : α → α := pairs.foldl (fun parent p => union find parent p.1 p.2) id

/-- `for x in xs: groups[find(x)].append(x)` -/
def groupAll (parent : α → α) (xs : List α) : OrderedDict α (List α) :=
  (xs.foldl (fun st x => ((find st.1 x).2, Grouping.appendTo st.2 (find st.1 x).1 x)) (parent, .empty)).2

variable {find} {S : Finset α} (hfind : Finds S find)

include hfind

omit [DecidableEq α] in
/-- A find leaves the sets. -/
theorem same_find {parent : α → α} (h : Forest S parent) (x y z : α) :
    Same (find parent x).2 y z ↔ Same parent y z := by
  have hfound := hfind parent h x
  obtain ⟨s, hs⟩ := h.grounded y
  obtain ⟨t, ht⟩ := h.grounded z
  rw [same_iff hs ht, same_iff (hfound.kept y s hs) (hfound.kept z t ht)]

theorem union_spec {parent : α → α} (h : Forest S parent) {a b : α} (ha : a ∈ S) (hb : b ∈ S) :
    Forest S (union find parent a b) ∧ Joins (Same parent) a b (Same (union find parent a b)) := by
  have hfa := hfind parent h a
  have hfb := hfind (find parent a).2 hfa.forest b
  have hsame : ∀ y z, Same (find (find parent a).2 b).2 y z ↔ Same parent y z := by
    intro y z
    rw [same_find hfind hfa.forest, same_find hfind h]
  have hra : RootOf (find (find parent a).2 b).2 a (find parent a).1 := hfb.kept _ _ (hfa.kept _ _ hfa.root)
  have hrb : RootOf (find (find parent a).2 b).2 b (find (find parent a).2 b).1 := hfb.kept _ _ hfb.root
  unfold union
  simp only
  by_cases hne : (find parent a).1 ≠ (find (find parent a).2 b).1
  · rw [if_pos hne]
    obtain ⟨hgrounded, hjoin⟩ := joins_link hfb.forest.grounded hrb hra (Ne.symm hne)
    constructor
    · refine ⟨hgrounded, ?_⟩
      intro y hy
      by_cases hya : y = (find parent a).1
      · subst hya
        rw [Function.update_self]
        exact ⟨hfb.forest.root_mem ha hra, hfb.forest.root_mem hb hrb⟩
      · rw [Function.update_of_ne hya] at hy ⊢
        exact hfb.forest.inside y hy
    · have hswap := hjoin.swap fun hxy => Same.symm hxy
      exact ⟨fun y z hyz => hswap.mono y z ((hsame y z).mpr hyz), hswap.pair,
        fun E hE hle hab => hswap.least E hE (fun y z hyz => hle y z ((hsame y z).mp hyz)) hab⟩
  · rw [if_neg hne]
    refine ⟨hfb.forest, ?_⟩
    have hab : Same parent a b := by
      rw [← hsame]
      exact (same_iff hra hrb).mpr (not_not.mp hne)
    have hjoin := joins_of_related hab
    exact ⟨fun y z hyz => (hsame y z).mpr hyz, (hsame a b).mpr hab,
      fun E hE hle hab y z hyz => hjoin.least E hE hle hab y z ((hsame y z).mp hyz)⟩

/-- **After all unions the sets are the connected elements.** -/
theorem unionAll_same {pairs : List (α × α)} (hpairs : ∀ p ∈ pairs, p.1 ∈ S ∧ p.2 ∈ S) :
    Forest S (unionAll find pairs) ∧ ∀ x y, Same (unionAll find pairs) x y ↔ Connected pairs x y := by
  apply @connected_of_joins _ _ (fun parent : α → α => Same parent) _ (Forest S)
    fun p : α × α => p.1 ∈ S ∧ p.2 ∈ S
  · intro parent p h hp
    exact union_spec hfind h hp.1 hp.2
  · exact fun parent h => same_equivalence h.grounded
  · exact forest_id S
  · exact hpairs
  · intro x y hxy
    exact (same_iff (@RootOf.root _ id _ rfl) (RootOf.root rfl)).mp hxy

/-- Grouping by roots that a find keeps. -/
theorem groupAll_eq_groupBy {root : α → α} (xs : List α) : ∀ (parent : α → α) (d : OrderedDict α (List α)),
    Forest S parent → (∀ x, RootOf parent x (root x)) →
    (xs.foldl (fun st x => ((find st.1 x).2, Grouping.appendTo st.2 (find st.1 x).1 x)) (parent, d)).2 =
      xs.foldl (fun d x => Grouping.appendTo d (root x) x) d := by
  induction xs with
  | nil => exact fun _ _ _ _ => rfl
  | cons x xs ih =>
      intro parent d h hroot
      have hfound := hfind parent h x
      have hx : (find parent x).1 = root x := hfound.root.unique (hroot x)
      rw [List.foldl_cons, List.foldl_cons, hx]
      exact ih _ _ hfound.forest fun y => hfound.kept y _ (hroot y)

/-- **Grouping by `find` groups by connection.** -/
theorem groupAll_eq {K : Type*} [DecidableEq K] {key : α → K} {pairs : List (α × α)} {xs : List α}
    (hpairs : ∀ p ∈ pairs, p.1 ∈ S ∧ p.2 ∈ S) (hkey : ∀ x y, key x = key y ↔ Connected pairs x y) :
    (groupAll find (unionAll find pairs) xs).items.map Prod.snd = Grouping.groups key xs := by
  obtain ⟨hforest, hsame⟩ := unionAll_same hfind hpairs
  obtain ⟨root, hroot⟩ : ∃ root : α → α, ∀ x, RootOf (unionAll find pairs) x (root x) :=
    ⟨_, fun x => (hforest.grounded x).choose_spec⟩
  rw [groupAll, groupAll_eq_groupBy hfind xs _ _ hforest hroot]
  show (Grouping.groupBy root xs).items.map Prod.snd = _
  rw [Grouping.values_groupBy]
  apply Grouping.groups_congr
  intro x _ y _
  rw [hkey, ← hsame, same_iff (hroot x) (hroot y)]

end Union

end FindUnion
