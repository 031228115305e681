import Mathlib.Data.List.Pairwise
import Mathlib.Data.List.Perm.Subperm
import Mathlib.Data.List.Sort

/-!
# Sorting by a number

A stable sort by a numeric key, as `list.sort(key=...)`.

* `sortBy_eq` — a list that is in order and has the elements of another is what sorting that gives.
* `mergeSort_eq_of_perm` — by a key that tells the elements apart, the order they come in is
  forgotten.
* `Least.append` — the least elements of two lists are the least of what is least in each.
-/

namespace SortBy

variable {X : Type*} (f : X → ℕ)

def sortBy (l : List X) : List X := l.insertionSort fun a b => f a ≤ f b

variable {f}

@[simp] theorem mem_sortBy {l : List X} {x : X} : x ∈ sortBy f l ↔ x ∈ l :=
  List.mem_insertionSort _

@[simp] theorem length_sortBy (l : List X) : (sortBy f l).length = l.length :=
  List.length_insertionSort _ l

theorem perm_sortBy (l : List X) : (sortBy f l).Perm l := List.perm_insertionSort _ l

instance total_le : Std.Total fun a b : X => f a ≤ f b := ⟨fun a b => Nat.le_total (f a) (f b)⟩

instance isTrans_le : IsTrans X fun a b : X => f a ≤ f b := ⟨fun _ _ _ => Nat.le_trans⟩

theorem pairwise_sortBy (l : List X) : (sortBy f l).Pairwise fun a b => f a ≤ f b :=
  List.pairwise_insertionSort _ l

/-- **An ordered list with the same elements is the sorted one.** -/
theorem sortBy_eq {l m : List X} (hperm : m.Perm l) (hm : m.Pairwise fun a b => f a < f b) :
    sortBy f l = m := by
  have hle : m.Pairwise fun a b => f a ≤ f b := hm.imp Nat.le_of_lt
  apply List.Perm.eq_of_pairwise ?_ (pairwise_sortBy l) hle ((perm_sortBy l).trans hperm.symm)
  intro a b ha hb hab hba
  have ham : a ∈ m := hperm.mem_iff.mpr (mem_sortBy.mp ha)
  by_contra hne
  have : Std.Symm fun a b : X => f a ≠ f b := ⟨fun _ _ h heq => h heq.symm⟩
  have hdistinct : m.Pairwise fun a b => f a ≠ f b := hm.imp Nat.ne_of_lt
  exact hdistinct.forall ham hb hne (Nat.le_antisymm hab hba)

/-- A list in descending order is reversed. -/
theorem sortBy_eq_reverse {l : List X} (h : l.Pairwise fun a b => f b < f a) :
    sortBy f l = l.reverse :=
  sortBy_eq l.reverse_perm (List.pairwise_reverse.mpr h)

/-! ## Keys that tell the elements apart -/

section Key

variable {K : Type*} [LinearOrder K] {key : X → K}

theorem pairwise_mergeSort (key : X → K) (l : List X) :
    (l.mergeSort fun a b => decide (key a ≤ key b)).Pairwise fun a b => key a ≤ key b := by
  have hsorted : (l.mergeSort fun a b => decide (key a ≤ key b)).Pairwise
      fun a b => decide (key a ≤ key b) = true := by
    apply List.pairwise_mergeSort
    · intro a b c hab hbc
      exact decide_eq_true (le_trans (of_decide_eq_true hab) (of_decide_eq_true hbc))
    · intro a b
      rcases le_total (key a) (key b) with h | h
      · rw [decide_eq_true h, Bool.true_or]
      · rw [decide_eq_true h, Bool.or_true]
  exact hsorted.imp of_decide_eq_true

/-- **Elements with distinct keys are sorted to one list**, in whatever order they come. -/
theorem mergeSort_eq_of_perm {l m : List X} (hinj : ∀ a ∈ l, ∀ b ∈ l, key a = key b → a = b)
    (h : l.Perm m) : l.mergeSort (fun a b => decide (key a ≤ key b)) =
      m.mergeSort fun a b => decide (key a ≤ key b) := by
  have hperm := ((List.mergeSort_perm l fun a b => decide (key a ≤ key b)).trans h).trans
    (List.mergeSort_perm m fun a b => decide (key a ≤ key b)).symm
  apply List.Perm.eq_of_pairwise ?_ (pairwise_mergeSort key l) (pairwise_mergeSort key m) hperm
  intro a b ha hb hab hba
  have hal : a ∈ l := List.mem_mergeSort.mp ha
  have hbl : b ∈ l := h.mem_iff.mpr (List.mem_mergeSort.mp hb)
  exact hinj a hal b hbl (le_antisymm hab hba)

/-! ## The least elements -/

/-- `ys` are `n` elements of `xs` that no other element is below, all of them if there are no more. -/
structure Least (key : X → K) (n : ℕ) (xs ys : List X) : Prop where
  length : ys.length = min n xs.length
  nodup : ys.Nodup
  subset : ys ⊆ xs
  le : ∀ y ∈ ys, ∀ x ∈ xs, x ∉ ys → key y ≤ key x

/-- The front of a sorted list. -/
theorem least_take {xs sorted : List X} (hn : xs.Nodup) (hperm : sorted.Perm xs)
    (hsorted : sorted.Pairwise fun a b => key a ≤ key b) (n : ℕ) : Least key n xs (sorted.take n) := by
  constructor
  · rw [List.length_take, hperm.length_eq]
  · exact (hperm.nodup_iff.mpr hn).sublist (List.take_sublist n sorted)
  · exact fun y hy => hperm.subset (List.mem_of_mem_take hy)
  · intro y hy x hx hnot
    rw [← List.take_append_drop n sorted] at hsorted hperm
    have hdrop : x ∈ sorted.drop n := (List.mem_append.mp (hperm.symm.subset hx)).resolve_left hnot
    exact (List.pairwise_append.mp hsorted).2.2 y hy x hdrop

theorem Least.of_perm {n : ℕ} {xs xs' ys : List X} (h : Least key n xs ys) (hperm : xs.Perm xs') :
    Least key n xs' ys :=
  ⟨hperm.length_eq ▸ h.length, h.nodup, fun _ hy => hperm.subset (h.subset hy),
    fun y hy x hx hnot => h.le y hy x (hperm.symm.subset hx) hnot⟩

/-- Fewer than `n` are all. -/
theorem Least.mem_of_short {n : ℕ} {xs ys : List X} (h : Least key n xs ys)
    (hshort : ys.length < n) {x : X} (hx : x ∈ xs) : x ∈ ys := by
  have hlength : xs.length ≤ ys.length := by
    have := h.length
    omega
  exact ((List.Nodup.subperm h.nodup h.subset).perm_of_length_le hlength).mem_iff.mpr hx

/-- A part of which the `n` least take part in a selection has no smaller element left. -/
theorem Least.le_of_part {n : ℕ} {xs part us : List X} (h : Least key n xs part) (hlength : us.length ≤ n)
    {y : X} (hy : y ∈ us) (hpart : ∀ s ∈ part, s ∉ us → key y ≤ key s) {x : X} (hx : x ∈ xs)
    (hnot : x ∉ us) : key y ≤ key x := by
  by_cases hmem : x ∈ part
  · exact hpart x hmem hnot
  -- the part is full, and either one of it is left out too or it is the selection
  · by_cases hleft : ∃ s ∈ part, s ∉ us
    · obtain ⟨s, hs, hsnot⟩ := hleft
      exact (hpart s hs hsnot).trans (h.le s hs x hx hmem)
    · have hsub : part ⊆ us := fun s hs => by_contra fun hsnot => hleft ⟨s, hs, hsnot⟩
      have hfull : us.length ≤ part.length :=
        hlength.trans (Nat.le_of_not_lt fun hshort => hmem (h.mem_of_short hshort hx))
      have hperm := (List.Nodup.subperm h.nodup hsub).perm_of_length_le hfull
      exact h.le y (hperm.mem_iff.mpr hy) x hx hmem

/-- **The least of two lists** are the least of what is least in each. -/
theorem Least.append {n : ℕ} {xs xs' ys ys' us : List X} (h : Least key n xs ys) (h' : Least key n xs' ys')
    (hus : Least key n (ys ++ ys') us) : Least key n (xs ++ xs') us := by
  have hlength := hus.length
  rw [List.length_append] at hlength
  constructor
  · rw [List.length_append]
    have hl := h.length
    have hl' := h'.length
    omega
  · exact hus.nodup
  · intro u hu
    rcases List.mem_append.mp (hus.subset hu) with hu | hu
    · exact List.mem_append_left _ (h.subset hu)
    · exact List.mem_append_right _ (h'.subset hu)
  · intro y hy x hx hnot
    have hle : us.length ≤ n := by omega
    rcases List.mem_append.mp hx with hx | hx
    · exact h.le_of_part hle hy
        (fun s hs => hus.le y hy s (List.mem_append_left _ hs)) hx hnot
    · exact h'.le_of_part hle hy
        (fun s hs => hus.le y hy s (List.mem_append_right _ hs)) hx hnot

end Key

end SortBy
