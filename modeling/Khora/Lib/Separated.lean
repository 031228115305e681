import Mathlib.Data.List.Basic

/-!
# Texts put together with a separator

Two texts joined by a separator, and what is lost when either of them may hold it.

* `pair_eq_pair_iff` — two pairs give the same text if and only if they are equal, or the text that
  one has before its separator goes on behind the separator of the other.
* `join_inj` — a list of texts without the separator is read off from their join.
-/

namespace Separated

variable {X : Type*} (s : List X)

/-! ## Pairs -/

def pair (p : List X × List X) : List X := p.1 ++ s ++ p.2

/-- The first text of `q` is that of `p` and a part of what follows it. -/
def Shifts (p q : List X × List X) : Prop :=
  ∃ w, w ≠ [] ∧ q.1 = p.1 ++ w ∧ s ++ p.2 = w ++ (s ++ q.2)

variable {s}

theorem Shifts.pair_eq {p q : List X × List X} (h : Shifts s p q) : pair s p = pair s q := by
  obtain ⟨w, _, hfst, hsnd⟩ := h
  unfold pair
  rw [hfst, List.append_assoc, hsnd, List.append_assoc, List.append_assoc]

theorem Shifts.ne {p q : List X × List X} (h : Shifts s p q) : p ≠ q := by
  rintro rfl
  obtain ⟨w, hw, hfst, _⟩ := h
  exact hw (List.self_eq_append_right.mp hfst)

theorem not_shifts_of_fst_eq (t a b : List X) : ¬ Shifts s (t, a) (t, b) := by
  rintro ⟨w, hw, heq, _⟩
  exact hw (List.self_eq_append_right.mp heq)

/-- **A pair is read off from its text, up to a shift of the separator.** -/
theorem pair_eq_pair_iff {p q : List X × List X} :
    pair s p = pair s q ↔ p = q ∨ Shifts s p q ∨ Shifts s q p := by
  constructor
  · intro h
    unfold pair at h
    rw [List.append_assoc, List.append_assoc, List.append_eq_append_iff] at h
    rcases h with ⟨w, hfst, hsnd⟩ | ⟨w, hfst, hsnd⟩
    · by_cases hw : w = []
      · subst hw
        rw [List.append_nil] at hfst
        exact Or.inl (Prod.ext hfst.symm (List.append_cancel_left hsnd))
      · exact Or.inr (Or.inl ⟨w, hw, hfst, hsnd⟩)
    · by_cases hw : w = []
      · subst hw
        rw [List.append_nil] at hfst
        exact Or.inl (Prod.ext hfst (List.append_cancel_left hsnd).symm)
      · exact Or.inr (Or.inr ⟨w, hw, hfst, hsnd⟩)
  · rintro (rfl | h | h)
    · rfl
    · exact h.pair_eq
    · exact h.pair_eq.symm

/-- The text tells a pair from another one exactly when neither shifts to the other. -/
theorem eq_of_pair_eq_iff {p q : List X × List X} :
    (pair s p = pair s q → p = q) ↔ ¬ (Shifts s p q ∨ Shifts s q p) := by
  constructor
  · rintro h (hpq | hqp)
    · exact hpq.ne (h hpq.pair_eq)
    · exact hqp.ne (h hqp.pair_eq.symm).symm
  · intro h heq
    rcases pair_eq_pair_iff.mp heq with heq | hshift
    · exact heq
    · exact absurd hshift h

/-- With one separating letter, a shift is a further letter in the second text. -/
theorem shifts_singleton_iff {c : X} {p q : List X × List X} :
    Shifts [c] p q ↔ ∃ w, q.1 = p.1 ++ c :: w ∧ p.2 = w ++ c :: q.2 := by
  constructor
  · rintro ⟨w, hw, hfst, hsnd⟩
    cases w with
    | nil => exact absurd rfl hw
    | cons x w =>
      rw [List.singleton_append, List.cons_append, List.cons.injEq] at hsnd
      obtain ⟨rfl, hsnd⟩ := hsnd
      exact ⟨w, hfst, hsnd⟩
  · rintro ⟨w, hfst, hsnd⟩
    refine ⟨c :: w, List.cons_ne_nil c w, hfst, ?_⟩
    rw [hsnd]
    rfl

/-! ## Lists of texts -/

theorem mem_join_of_mem {c x : X} {t : List X} {xs : List (List X)} (ht : t ∈ xs) (hx : x ∈ t) :
    x ∈ [c].intercalate xs := by
  induction xs with
  | nil => cases ht
  | cons y ys ih =>
    cases ys with
    | nil =>
      rw [List.mem_singleton] at ht
      subst ht
      rw [List.intercalate_singleton]
      exact hx
    | cons z zs =>
      rw [List.intercalate_cons_cons]
      rcases List.mem_cons.mp ht with rfl | ht
      · exact List.mem_append_left _ (List.mem_append_left _ hx)
      · exact List.mem_append_right _ (ih ht)

/-- **Texts without the separating letter are read off from their join.** -/
theorem join_inj [DecidableEq X] {c : X} {xs ys : List (List X)} (hxs : xs ≠ []) (hys : ys ≠ [])
    (hcx : ∀ x ∈ xs, c ∉ x) (hcy : ∀ y ∈ ys, c ∉ y)
    (h : [c].intercalate xs = [c].intercalate ys) : xs = ys := by
  rw [← List.splitOn_intercalate c hcx hxs, h, List.splitOn_intercalate c hcy hys]

end Separated
