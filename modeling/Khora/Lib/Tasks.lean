import Mathlib.Data.List.Basic

/-!
# Tasks side by side

Tasks that take turns: a list of task states in which one step changes one of them, and what tasks
have of their own, such as the results they hold.

* `Has.set` — a step that keeps what its task has keeps what the tasks have.
* `Exclusive.set` — what a task takes that no other has keeps the tasks apart.
-/

namespace Tasks

variable {T Y : Type*} {tasks : List T} {i : ℕ} {t t' : T}

theorem getElem?_set (h : tasks[i]? = some t) (j : ℕ) :
    (tasks.set i t')[j]? = if j = i then some t' else tasks[j]? := by
  rw [List.getElem?_set]
  have hlt := (List.getElem?_eq_some_iff.mp h).1
  by_cases hj : j = i
  · rw [if_pos hj, if_pos hj.symm, if_pos hlt]
  · rw [if_neg hj, if_neg (Ne.symm hj)]

theorem getElem?_set_cases (h : tasks[i]? = some t) {j : ℕ} {u : T}
    (hu : (tasks.set i t')[j]? = some u) : j = i ∧ u = t' ∨ j ≠ i ∧ tasks[j]? = some u := by
  rw [getElem?_set h] at hu
  by_cases hj : j = i
  · rw [if_pos hj, Option.some.injEq] at hu
    exact Or.inl ⟨hj, hu.symm⟩
  · rw [if_neg hj] at hu
    exact Or.inr ⟨hj, hu⟩

theorem mem_set (h : tasks[i]? = some t) {u : T} (hu : u ∈ tasks.set i t') : u = t' ∨ u ∈ tasks := by
  obtain ⟨j, hj⟩ := List.mem_iff_getElem?.mp hu
  rcases getElem?_set_cases h hj with ⟨_, heq⟩ | ⟨_, hget⟩
  · exact Or.inl heq
  · exact Or.inr (List.mem_of_getElem? hget)

/-! ## What tasks have -/

variable {f : T → List Y}

/-- Some task has it. -/
def Has (f : T → List Y) (tasks : List T) (y : Y) : Prop := ∃ t ∈ tasks, y ∈ f t

instance [DecidableEq Y] (y : Y) : Decidable (Has f tasks y) :=
  inferInstanceAs (Decidable (∃ t ∈ tasks, y ∈ f t))

theorem has_of_getElem? (h : tasks[i]? = some t) {y : Y} (hy : y ∈ f t) : Has f tasks y :=
  ⟨t, List.mem_of_getElem? h, hy⟩

theorem Has.append {y : Y} (h : Has f tasks y) (t : T) : Has f (tasks ++ [t]) y := by
  obtain ⟨u, hu, hy⟩ := h
  exact ⟨u, List.mem_append_left _ hu, hy⟩

/-- **A step that keeps what its task has** keeps what the tasks have. -/
theorem Has.set {y : Y} (h : Has f tasks y) (hi : tasks[i]? = some t) (hkeep : ∀ y ∈ f t, y ∈ f t') :
    Has f (tasks.set i t') y := by
  obtain ⟨u, hu, hy⟩ := h
  obtain ⟨j, hj⟩ := List.mem_iff_getElem?.mp hu
  by_cases hij : j = i
  · subst hij
    rw [hi, Option.some.injEq] at hj
    subst hj
    exact has_of_getElem? (by rw [getElem?_set hi, if_pos rfl]) (hkeep y hy)
  · exact has_of_getElem? (by rw [getElem?_set hi, if_neg hij, hj]) hy

theorem has_set_self {y : Y} (hi : tasks[i]? = some t) (hy : y ∈ f t') : Has f (tasks.set i t') y :=
  has_of_getElem? (by rw [getElem?_set hi, if_pos rfl]) hy

/-! ## What one task has alone -/

/-- No two tasks have the same. -/
def Exclusive (f : T → List Y) (tasks : List T) : Prop :=
  ∀ (i j : ℕ) (t t' : T) (y : Y), tasks[i]? = some t → tasks[j]? = some t' → y ∈ f t → y ∈ f t' → i = j

theorem exclusive_nil : Exclusive f ([] : List T) := by
  intro i j t t' y hi
  cases hi

/-- **A step that takes only what no task has** keeps the tasks apart. -/
theorem Exclusive.set (h : Exclusive f tasks) (hi : tasks[i]? = some t)
    (hnew : ∀ y ∈ f t', y ∈ f t ∨ ¬ Has f tasks y) : Exclusive f (tasks.set i t') := by
  intro j k u v y hj hk hu hv
  rcases getElem?_set_cases hi hj with ⟨hji, hut⟩ | ⟨hji, hju⟩ <;>
    rcases getElem?_set_cases hi hk with ⟨hki, hvt⟩ | ⟨hki, hkv⟩
  · rw [hji, hki]
  · rcases hnew y (hut ▸ hu) with hold | hfree
    · rw [hji]
      exact h _ _ _ _ y hi hkv hold hv
    · exact absurd (has_of_getElem? hkv hv) hfree
  · rcases hnew y (hvt ▸ hv) with hold | hfree
    · rw [hki]
      exact h _ _ _ _ y hju hi hu hold
    · exact absurd (has_of_getElem? hju hu) hfree
  · exact h j k u v y hju hkv hu hv

theorem getElem?_append_cases {j : ℕ} {u : T} (h : (tasks ++ [t])[j]? = some u) :
    j = tasks.length ∧ u = t ∨ tasks[j]? = some u := by
  rw [List.getElem?_append] at h
  by_cases hj : j < tasks.length
  · rw [if_pos hj] at h
    exact Or.inr h
  · rw [if_neg hj, List.getElem?_singleton] at h
    by_cases hzero : j - tasks.length = 0
    · rw [if_pos hzero, Option.some.injEq] at h
      exact Or.inl ⟨by omega, h.symm⟩
    · rw [if_neg hzero] at h
      cases h

/-- A task that begins with nothing keeps the tasks apart. -/
theorem Exclusive.append (h : Exclusive f tasks) (ht : f t = []) : Exclusive f (tasks ++ [t]) := by
  intro j k u v y hj hk hu hv
  rcases getElem?_append_cases hj with ⟨_, rfl⟩ | hj
  · rw [ht] at hu
    cases hu
  · rcases getElem?_append_cases hk with ⟨_, rfl⟩ | hk
    · rw [ht] at hv
      cases hv
    · exact h j k u v y hj hk hu hv

end Tasks
