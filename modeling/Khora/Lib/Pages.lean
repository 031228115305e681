import Mathlib.Data.List.Basic

/-!
# Reading a list page by page

A loop asks for the page at a cursor, visits its elements one after the other, and goes on behind the
page if it was full.

* `foldPages_eq` — over a list that does not change, the pages are the list.
* `flatten_slices` — so are the slices of a fixed size.
* `sweep_clean_iff` — a loop that deletes from the list it pages through, and what it passes over.
-/

namespace Pages

variable {X B : Type*}

/-- The page of `size` elements at `cursor`. -/
def page (size : ℕ) (xs : List X) (cursor : ℕ) : List X := (xs.drop cursor).take size

/-- A short page is the last one. -/
theorem page_eq_drop {size cursor : ℕ} {xs : List X} (h : (page size xs cursor).length < size) :
    page size xs cursor = xs.drop cursor := by
  unfold page at h ⊢
  rw [List.length_take] at h
  exact List.take_of_length_le (by omega)

theorem drop_of_page_nil {size cursor : ℕ} {xs : List X} (hsize : 0 < size)
    (h : page size xs cursor = []) : xs.drop cursor = [] := by
  rw [← page_eq_drop (by rw [h]; exact hsize), h]

theorem drop_eq_page_append (size cursor : ℕ) (xs : List X) :
    xs.drop cursor = page size xs cursor ++ xs.drop (cursor + size) := by
  unfold page
  rw [← List.drop_drop, List.take_append_drop]

/-- Behind a full page there are fewer elements. -/
theorem le_of_full_page {size cursor : ℕ} {xs : List X} (h : ¬(page size xs cursor).length < size) :
    size ≤ xs.length - cursor := by
  unfold page at h
  rw [List.length_take, List.length_drop] at h
  omega

/-- Visit the elements page by page, until `stop`. -/
def foldPages (size : ℕ) (stop : B → Bool) (visit : B → X → B) (xs : List X) : ℕ → ℕ → B → B
  | 0, _, b => b
  | fuel + 1, cursor, b =>
    if stop b then b
    else if page size xs cursor = [] then b
    else if (page size xs cursor).length < size then (page size xs cursor).foldl visit b
    else foldPages size stop visit xs fuel (cursor + size) ((page size xs cursor).foldl visit b)

theorem foldl_of_stop {stop : B → Bool} {visit : B → X → B}
    (hstop : ∀ b x, stop b = true → visit b x = b) {b : B} (h : stop b = true) (xs : List X) :
    xs.foldl visit b = b := by
  induction xs with
  | nil => rfl
  | cons x xs ih => rw [List.foldl_cons, hstop b x h, ih]

/-- **The pages are the list.** -/
theorem foldPages_eq {size : ℕ} {stop : B → Bool} {visit : B → X → B} (hsize : 0 < size)
    (hstop : ∀ b x, stop b = true → visit b x = b) (xs : List X) {fuel cursor : ℕ}
    (hfuel : xs.length < fuel + cursor) (b : B) :
    foldPages size stop visit xs fuel cursor b = (xs.drop cursor).foldl visit b := by
  induction fuel generalizing cursor b with
  | zero =>
    rw [List.drop_eq_nil_of_le (by omega)]
    rfl
  | succ fuel ih =>
    unfold foldPages
    by_cases hb : stop b = true
    · rw [if_pos hb, foldl_of_stop hstop hb]
    · rw [if_neg hb]
      by_cases hnil : page size xs cursor = []
      · rw [if_pos hnil, drop_of_page_nil hsize hnil]
        rfl
      · rw [if_neg hnil]
        by_cases hshort : (page size xs cursor).length < size
        · rw [if_pos hshort, page_eq_drop hshort]
        · have hfull := le_of_full_page hshort
          rw [if_neg hshort, ih (by omega), drop_eq_page_append size cursor, List.foldl_append]

/-! ## Slices of a fixed size -/

/-- The slices at `0, size, 2 * size, …`, as `range(0, len(xs), size)` gives them. -/
def slices (size : ℕ) (xs : List X) : List (List X) :=
  (List.range ((xs.length + size - 1) / size)).map fun i => page size xs (i * size)

theorem flatten_pages (size : ℕ) (xs : List X) (n : ℕ) :
    ((List.range n).map fun i => page size xs (i * size)).flatten = xs.take (n * size) := by
  induction n with
  | zero => simp
  | succ n ih =>
    rw [List.range_succ, List.map_append, List.flatten_append, ih, Nat.succ_mul, List.take_add]
    simp [page]

/-- **The slices together are the list.** -/
theorem flatten_slices {size : ℕ} (hsize : 0 < size) (xs : List X) : (slices size xs).flatten = xs := by
  rw [slices, flatten_pages]
  apply List.take_of_length_le
  have hdiv := Nat.div_add_mod (xs.length + size - 1) size
  have hmod := Nat.mod_lt (xs.length + size - 1) hsize
  rw [Nat.mul_comm] at hdiv
  omega

theorem slices_nil {size : ℕ} (hsize : 0 < size) : slices size ([] : List X) = [] := by
  rw [slices, List.length_nil, Nat.div_eq_of_lt (by omega)]
  rfl

theorem mem_slices {size : ℕ} (hsize : 0 < size) {xs : List X} {x : X} :
    x ∈ xs ↔ ∃ slice ∈ slices size xs, x ∈ slice := by
  rw [← List.mem_flatten, flatten_slices hsize]

/-! ## Deleting between the pages -/

section Sweep

variable (size : ℕ) (p : X → Bool)

/-- How many elements of the page are deleted. -/
def hits (xs : List X) : ℕ := (xs.take size).countP p

/-- What is left behind the cursor when the elements of every page that satisfy `p` are deleted and
the cursor goes on by `size`. -/
def sweep : ℕ → List X → List X
  | 0, xs => xs
  | fuel + 1, xs =>
      if xs.length < size then xs.filter fun x => !p x
      else ((xs.take size).filter fun x => !p x) ++
        ((xs.drop size).take (hits size p xs) ++ sweep fuel (xs.drop (size + hits size p xs)))

/-- The elements that move up over the cursor and are not visited: behind a full page, as many as were
deleted from it. -/
def passedOver : ℕ → List X → List X
  | 0, _ => []
  | fuel + 1, xs =>
      if xs.length < size then []
      else (xs.drop size).take (hits size p xs) ++ passedOver fuel (xs.drop (size + hits size p xs))

variable {size p}

theorem length_kept_add_hits {xs : List X} (h : ¬xs.length < size) :
    ((xs.take size).filter fun x => !p x).length + hits size p xs = size := by
  have hcount := List.length_eq_countP_add_countP p (l := xs.take size)
  rw [List.length_take, Nat.min_eq_left (Nat.le_of_not_lt h)] at hcount
  rw [← List.countP_eq_length_filter, hits]
  simp only [Bool.not_eq_true, Bool.decide_eq_false] at hcount
  omega

/-- Behind a full page whose elements were deleted, as many elements move up over the next cursor. -/
theorem take_swept {xs : List X} (pre : List X) (h : ¬xs.length < size) :
    (pre ++ ((xs.take size).filter fun x => !p x) ++ xs.drop size).take (pre.length + size) =
      pre ++ ((xs.take size).filter fun x => !p x) ++ (xs.drop size).take (hits size p xs) := by
  have hkept := length_kept_add_hits (p := p) h
  rw [List.take_append, List.take_of_length_le (by rw [List.length_append]; omega), List.length_append]
  congr 2
  omega

theorem drop_swept {xs : List X} (pre : List X) (h : ¬xs.length < size) :
    (pre ++ ((xs.take size).filter fun x => !p x) ++ xs.drop size).drop (pre.length + size) =
      xs.drop (size + hits size p xs) := by
  have hkept := length_kept_add_hits (p := p) h
  rw [List.drop_append, List.drop_eq_nil_of_le (by rw [List.length_append]; omega), List.length_append,
    List.nil_append, List.drop_drop]
  congr 1
  omega

theorem passedOver_sublist (fuel : ℕ) (xs : List X) : (passedOver size p fuel xs).Sublist xs := by
  induction fuel generalizing xs with
  | zero => exact List.nil_sublist _
  | succ fuel ih =>
    rw [passedOver]
    split
    · exact List.nil_sublist _
    · conv_rhs => rw [← List.take_append_drop size xs]
      refine List.Sublist.trans ?_ (List.sublist_append_right _ _)
      conv_rhs => rw [← List.take_append_drop (hits size p xs) (xs.drop size)]
      refine List.Sublist.append (List.Sublist.refl _) ?_
      rw [List.drop_drop]
      exact ih _

theorem sweep_sublist (fuel : ℕ) (xs : List X) : (sweep size p fuel xs).Sublist xs := by
  induction fuel generalizing xs with
  | zero => exact List.Sublist.refl _
  | succ fuel ih =>
    rw [sweep]
    split
    · exact List.filter_sublist
    · conv_rhs => rw [← List.take_append_drop size xs]
      refine List.Sublist.append List.filter_sublist ?_
      conv_rhs => rw [← List.take_append_drop (hits size p xs) (xs.drop size)]
      refine List.Sublist.append (List.Sublist.refl _) ?_
      rw [List.drop_drop]
      exact ih _

/-- With a page size, a list shorter than the fuel is used up. -/
theorem mem_sweep (hsize : 0 < size) {fuel : ℕ} {xs : List X} (hfuel : xs.length < fuel) {x : X} :
    x ∈ sweep size p fuel xs ↔ x ∈ xs ∧ (p x = false ∨ x ∈ passedOver size p fuel xs) := by
  induction fuel generalizing xs with
  | zero => omega
  | succ fuel ih =>
    rw [sweep, passedOver]
    split
    · simp
    · have hdrop : (xs.drop (size + hits size p xs)).length < fuel := by
        rw [List.length_drop]
        omega
      have hmem : x ∈ xs ↔ x ∈ xs.take size ∨ x ∈ (xs.drop size).take (hits size p xs) ∨
          x ∈ xs.drop (size + hits size p xs) := by
        rw [← List.drop_drop, ← List.mem_append, List.take_append_drop, ← List.mem_append, List.take_append_drop]
      have hover : x ∈ passedOver size p fuel (xs.drop (size + hits size p xs)) →
          x ∈ xs.drop (size + hits size p xs) := fun h => (passedOver_sublist fuel _).subset h
      rw [List.mem_append, List.mem_append, List.mem_append, ih hdrop, hmem]
      simp only [List.mem_filter, Bool.not_eq_true']
      constructor
      · rintro (⟨hx, hp⟩ | hx | ⟨hx, hp | hx'⟩)
        · exact ⟨.inl hx, .inl hp⟩
        · exact ⟨.inr (.inl hx), .inr (.inl hx)⟩
        · exact ⟨.inr (.inr hx), .inl hp⟩
        · exact ⟨.inr (.inr hx), .inr (.inr hx')⟩
      · rintro ⟨hx, hp | hx' | hx'⟩
        · rcases hx with hx | hx | hx
          · exact .inl ⟨hx, hp⟩
          · exact .inr (.inl hx)
          · exact .inr (.inr ⟨hx, .inl hp⟩)
        · exact .inr (.inl hx')
        · exact .inr (.inr ⟨hover hx', .inr hx'⟩)

/-- **Nothing that satisfies `p` is left** exactly if nothing that satisfies it is passed over. -/
theorem sweep_clean_iff (hsize : 0 < size) {fuel : ℕ} {xs : List X} (hfuel : xs.length < fuel) :
    (∀ x ∈ sweep size p fuel xs, p x = false) ↔ ∀ x ∈ passedOver size p fuel xs, p x = false := by
  constructor
  · intro h x hx
    exact h x ((mem_sweep hsize hfuel).mpr ⟨(passedOver_sublist fuel xs).subset hx, .inr hx⟩)
  · intro h x hx
    exact ((mem_sweep hsize hfuel).mp hx).2.elim id (h x)

end Sweep

end Pages
