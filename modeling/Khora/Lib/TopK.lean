import Mathlib.Data.List.MinMax
import Mathlib.Data.List.Sort

/-!
# The first of the greatest elements

* `argmax_eq_some_iff_split` — the first of the greatest elements, by what stands before it and after it.
-/

namespace TopK

/-- **`argmax` is the element before which all are less**, and after which none is greater. -/
theorem argmax_eq_some_iff_split {α β : Type} [LinearOrder β] {f : α → β} {l : List α} {c : α} :
    l.argmax f = some c ↔ ∃ before after, l = before ++ c :: after ∧ (∀ m ∈ before, f m < f c) ∧
      ∀ m ∈ after, f m ≤ f c := by
  induction l generalizing c with
  | nil => simp
  | cons a l ih =>
      rw [List.argmax_cons]
      cases hbest : l.argmax f with
      | none =>
          obtain rfl : l = [] := List.argmax_eq_none.mp hbest
          constructor
          · rintro h
            obtain rfl := Option.some.inj h
            exact ⟨[], [], rfl, by simp, by simp⟩
          · rintro ⟨before, after, heq, -, -⟩
            cases before with
            | nil => exact congrArg some (List.cons.inj heq).1
            | cons b before => simp at heq
      | some best =>
          obtain ⟨before, after, hl, hbefore, hafter⟩ := ih.mp hbest
          have hle : ∀ m ∈ l, f m ≤ f best := fun m hm => List.le_of_mem_argmax hm hbest
          show (if f a < f best then some best else some a) = some c ↔ _
          constructor
          · intro h
            split at h
            · rename_i hlt
              obtain rfl := Option.some.inj h
              refine ⟨a :: before, after, by rw [hl]; rfl, ?_, hafter⟩
              intro m hm
              rcases List.mem_cons.mp hm with rfl | hm
              · exact hlt
              · exact hbefore m hm
            · rename_i hnot
              obtain rfl := Option.some.inj h
              exact ⟨[], l, rfl, by simp, fun m hm => (hle m hm).trans (not_lt.mp hnot)⟩
          · rintro ⟨front, back, heq, hfront, hback⟩
            cases front with
            | nil =>
                obtain ⟨rfl, rfl⟩ := List.cons.inj heq
                have hnot : ¬f a < f best := not_lt.mpr (hback best (List.argmax_mem hbest))
                rw [if_neg hnot]
            | cons b front =>
                obtain ⟨rfl, hrest⟩ := List.cons.inj heq
                have hc : some best = some c := hbest.symm.trans
                  (ih.mpr ⟨front, back, hrest, fun m hm => hfront m (List.mem_cons_of_mem _ hm), hback⟩)
                obtain rfl := Option.some.inj hc
                rw [if_pos (hfront a List.mem_cons_self)]

end TopK
