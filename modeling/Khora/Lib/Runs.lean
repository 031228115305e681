import Mathlib.Data.List.Basic

/-!
# Runs of a system

A system is a step function; a run is a list of actions.  `Guarded` says that every
step of a run meets a condition on the state before it.

* `run_invariant` — what one guarded step keeps, every guarded run keeps.
* `run_of_step` — the same for steps without a guard.
* `run_filter` — a run without the actions that do nothing.
* `always_iff_guarded` — a guard without which a step goes wrong is the exact condition for
  runs that never go wrong.
* `good_run_iff_guarded` — the same for the state a run ends in.
* `Settles.sends` — prefixes of a list of actions that are sent again and again come to the
  longest of them, if an action that was done does nothing any more.
-/

namespace Runs

variable {S A : Type*} (step : S → A → S) (guard : S → A → Prop)

/-- The state after the actions, taken in order. -/
def run (s : S) (acts : List A) : S := acts.foldl step s

/-- Every step of the run meets the guard in the state it is taken in. -/
def Guarded : S → List A → Prop
  | _, [] => True
  | s, a :: acts => guard s a ∧ Guarded (step s a) acts

/-- What holds in every state the run reaches. -/
def Always (good : S → Prop) : S → List A → Prop
  | _, [] => True
  | s, a :: acts => good (step s a) ∧ Always good (step s a) acts

@[simp] theorem run_nil (s : S) : run step s [] = s := rfl

@[simp] theorem run_cons (s : S) (a : A) (acts : List A) :
    run step s (a :: acts) = run step (step s a) acts := rfl

instance decidableGuarded [∀ s a, Decidable (guard s a)] :
    ∀ (s : S) (acts : List A), Decidable (Guarded step guard s acts)
  | _, [] => .isTrue trivial
  | s, a :: acts =>
      have := decidableGuarded (step s a) acts
      inferInstanceAs (Decidable (guard s a ∧ Guarded step guard (step s a) acts))

variable {step guard}

/-- **The invariant rule.**  What every guarded step keeps, every guarded run keeps. -/
theorem run_invariant {Inv : S → Prop}
    (hstep : ∀ s a, Inv s → guard s a → Inv (step s a)) {acts : List A} :
    ∀ {s : S}, Inv s → Guarded step guard s acts → Inv (run step s acts) := by
  induction acts with
  | nil => exact fun h _ => h
  | cons a acts ih =>
      intro s h hg
      exact ih (hstep s a h hg.1) hg.2

/-- What every step keeps, every run keeps. -/
theorem run_of_step {Inv : S → Prop} (hstep : ∀ s a, Inv s → Inv (step s a)) {s : S} (h : Inv s)
    (acts : List A) : Inv (run step s acts) := by
  induction acts generalizing s with
  | nil => exact h
  | cons a acts ih => exact ih (hstep s a h)

theorem Guarded.imp {guard' : S → A → Prop} (h : ∀ s a, guard s a → guard' s a) {acts : List A} :
    ∀ {s : S}, Guarded step guard s acts → Guarded step guard' s acts := by
  induction acts with
  | nil => exact fun _ => trivial
  | cons a acts ih => exact fun hg => ⟨h _ _ hg.1, ih hg.2⟩

theorem guarded_append {acts acts' : List A} :
    ∀ {s : S}, Guarded step guard s (acts ++ acts') ↔
      Guarded step guard s acts ∧ Guarded step guard (run step s acts) acts' := by
  induction acts with
  | nil => exact (and_iff_right trivial).symm
  | cons a acts ih =>
      intro s
      show guard s a ∧ Guarded step guard (step s a) (acts ++ acts') ↔ _
      rw [ih, ← and_assoc]
      exact Iff.rfl

/-- A run is guarded exactly if every action of it is, where it is taken. -/
theorem guarded_iff_split {acts : List A} : ∀ {s : S}, Guarded step guard s acts ↔
    ∀ xs a ys, acts = xs ++ a :: ys → guard (run step s xs) a := by
  induction acts with
  | nil => exact iff_of_true trivial fun xs a ys h => absurd h.symm (by simp)
  | cons b acts ih =>
      intro s
      show guard s b ∧ Guarded step guard (step s b) acts ↔ _
      rw [ih]
      constructor
      · rintro ⟨hb, hrest⟩ xs a ys h
        cases xs with
        | nil =>
            cases h
            exact hb
        | cons x xs =>
            obtain ⟨rfl, htail⟩ := List.cons.inj h
            exact hrest xs a ys htail
      · intro h
        exact ⟨h [] b acts rfl, fun xs a ys heq => h (b :: xs) a ys (congrArg (b :: ·) heq)⟩

/-- A guard that holds of the actions in every state. -/
theorem guarded_of_forall {acts : List A} (h : ∀ a ∈ acts, ∀ s, guard s a) :
    ∀ s, Guarded step guard s acts := by
  induction acts with
  | nil => exact fun _ => trivial
  | cons a acts ih =>
      rw [List.forall_mem_cons] at h
      exact fun s => ⟨h.1 s, ih h.2 _⟩

/-- **Actions that do nothing can be left out.** -/
theorem run_filter {keep : A → Bool} {acts : List A} :
    ∀ {s : S}, Guarded step (fun s a => keep a = false → step s a = s) s acts →
      run step s (acts.filter keep) = run step s acts := by
  induction acts with
  | nil => exact fun _ => rfl
  | cons a acts ih =>
      intro s h
      by_cases ha : keep a = true
      · rw [List.filter_cons_of_pos ha, run_cons, run_cons, ih h.2]
      · have hidle := h.1 (Bool.eq_false_iff.mpr ha)
        have hrest := ih h.2
        rw [List.filter_cons_of_neg ha, run_cons]
        rw [hidle] at hrest ⊢
        exact hrest

/-- What the invariant gives holds in every state of a guarded run. -/
theorem always_of_guarded {Inv good : S → Prop} {allowed : A → Prop}
    (hstep : ∀ s a, allowed a → Inv s → guard s a → Inv (step s a)) (hgood : ∀ s, Inv s → good s)
    {acts : List A} (hallowed : ∀ a ∈ acts, allowed a) :
    ∀ {s : S}, Inv s → Guarded step guard s acts → Always step good s acts := by
  induction acts with
  | nil => exact fun _ _ => trivial
  | cons a acts ih =>
      intro s h hg
      rw [List.forall_mem_cons] at hallowed
      have hinv := hstep s a hallowed.1 h hg.1
      exact ⟨hgood _ hinv, ih hallowed.2 hinv hg.2⟩

/-- **The exact guard.**  In runs that stay within bounds: if a guarded step keeps an invariant that
makes the states good, and a step without the guard leads to a bad one, the good runs are the guarded
ones. -/
theorem always_iff_guarded_within {Inv good within : S → Prop} {allowed : A → Prop}
    (hstep : ∀ s a, allowed a → within s → Inv s → guard s a → Inv (step s a))
    (hgood : ∀ s, within s → Inv s → good s)
    (hbad : ∀ s a, allowed a → within s → within (step s a) → Inv s → ¬guard s a → ¬good (step s a))
    {acts : List A} (hallowed : ∀ a ∈ acts, allowed a) {s : S} (hs : within s)
    (hwithin : Always step within s acts) (h : Inv s) :
    Always step good s acts ↔ Guarded step guard s acts := by
  induction acts generalizing s with
  | nil => exact Iff.rfl
  | cons a acts ih =>
      rw [List.forall_mem_cons] at hallowed
      show good (step s a) ∧ Always step good (step s a) acts ↔ guard s a ∧ Guarded step guard (step s a) acts
      by_cases hg : guard s a
      · have hinv := hstep s a hallowed.1 hs h hg
        rw [ih hallowed.2 hwithin.1 hwithin.2 hinv]
        exact and_congr_left fun _ => iff_of_true (hgood _ hwithin.1 hinv) hg
      · exact iff_of_false (fun hand => hbad s a hallowed.1 hs hwithin.1 h hg hand.1) fun hand => hg hand.1

theorem always_true (s : S) (acts : List A) : Always step (fun _ => True) s acts := by
  induction acts generalizing s with
  | nil => trivial
  | cons a acts ih => exact ⟨trivial, ih (step s a)⟩

/-- The exact guard for runs without bounds. -/
theorem always_iff_guarded {Inv good : S → Prop} {allowed : A → Prop}
    (hstep : ∀ s a, allowed a → Inv s → guard s a → Inv (step s a)) (hgood : ∀ s, Inv s → good s)
    (hbad : ∀ s a, allowed a → Inv s → ¬guard s a → ¬good (step s a)) {acts : List A}
    (hallowed : ∀ a ∈ acts, allowed a) {s : S} (h : Inv s) :
    Always step good s acts ↔ Guarded step guard s acts := by
  apply always_iff_guarded_within ?_ ?_ ?_ hallowed trivial (always_true s acts) h
  · exact fun s a ha _ => hstep s a ha
  · exact fun s _ => hgood s
  · exact fun s a ha _ _ => hbad s a ha

/-- **The exact guard for the end of a run.**  If a step from a good state leads to a good one exactly
with the guard, and what went wrong stays wrong, the runs that end well are the guarded ones. -/
theorem good_run_iff_guarded {Inv good : S → Prop} {allowed : A → Prop}
    (hinv : ∀ s a, Inv s → Inv (step s a))
    (hstep : ∀ s a, allowed a → Inv s → good s → (good (step s a) ↔ guard s a))
    (hback : ∀ s a, Inv s → good (step s a) → good s) {acts : List A} (hallowed : ∀ a ∈ acts, allowed a)
    {s : S} (hs : Inv s) (h : good s) : good (run step s acts) ↔ Guarded step guard s acts := by
  have hlost : ∀ (acts : List A) (s : S), Inv s → good (run step s acts) → good s := by
    intro acts
    induction acts with
    | nil => exact fun _ _ hgood => hgood
    | cons a acts ih => exact fun s hs hgood => hback s a hs (ih _ (hinv s a hs) hgood)
  induction acts generalizing s with
  | nil => exact iff_of_true h trivial
  | cons a acts ih =>
      rw [List.forall_mem_cons] at hallowed
      have hone := hstep s a hallowed.1 hs h
      show good (run step (step s a) acts) ↔ guard s a ∧ Guarded step guard (step s a) acts
      by_cases hg : guard s a
      · have hrest := ih hallowed.2 (hinv s a hs) (hone.mpr hg)
        exact hrest.trans (and_iff_right hg).symm
      · refine iff_of_false (fun hend => ?_) fun hand => hg hand.1
        exact hg (hone.mp (hlost acts _ (hinv s a hs) hend))

/-! ## Prefixes sent again -/

/-- Every one of the actions settles something, after which it does nothing, and which the
others leave as it is. -/
structure Settles (step : S → A → S) (settled : A → S → Prop) (acts : List A) : Prop where
  fixed : ∀ a ∈ acts, ∀ s, settled a s → step s a = s
  done : ∀ a ∈ acts, ∀ s, settled a (step s a)
  kept : ∀ a ∈ acts, ∀ b ∈ acts, ∀ s, settled a s → settled a (step s b)

section Sends

variable {settled : A → S → Prop} {acts : List A}

theorem run_append (s : S) (xs ys : List A) : run step s (xs ++ ys) = run step (run step s xs) ys :=
  List.foldl_append

/-- A run settles its actions. -/
theorem Settles.settled_run (h : Settles step settled acts) {xs : List A} (hsub : xs ⊆ acts) {a : A}
    (ha : a ∈ acts) : ∀ s, settled a s ∨ a ∈ xs → settled a (run step s xs) := by
  induction xs with
  | nil =>
      intro s hs
      rcases hs with hs | hs
      · exact hs
      · cases hs
  | cons x xs ih =>
      intro s hs
      have hx : x ∈ acts := hsub List.mem_cons_self
      apply ih (fun y hy => hsub (List.mem_cons_of_mem _ hy))
      rcases hs with hs | hs
      · exact .inl (h.kept a ha x hx s hs)
      · rcases List.mem_cons.mp hs with rfl | hs
        · exact .inl (h.done a hx s)
        · exact .inr hs

theorem Settles.run_settled (h : Settles step settled acts) {xs : List A} (hsub : xs ⊆ acts) {s : S}
    (hs : ∀ a ∈ xs, settled a s) : run step s xs = s := by
  induction xs with
  | nil => rfl
  | cons x xs ih =>
      rw [run_cons, h.fixed x (hsub List.mem_cons_self) s (hs x List.mem_cons_self)]
      exact ih (fun y hy => hsub (List.mem_cons_of_mem _ hy)) fun a ha => hs a (List.mem_cons_of_mem _ ha)

/-- One prefix after another. -/
theorem Settles.take_take (h : Settles step settled acts) (s : S) (m n : ℕ) :
    run step (run step s (acts.take m)) (acts.take n) = run step s (acts.take (max m n)) := by
  rcases Nat.le_total n m with hle | hle
  · rw [Nat.max_eq_left hle]
    apply h.run_settled (List.take_subset _ _)
    intro a ha
    apply h.settled_run (List.take_subset _ _) (List.take_subset _ _ ha)
    exact .inr ((List.take_subset_take_left acts hle) ha)
  · rw [Nat.max_eq_right hle]
    have hsplit : acts.take n = acts.take m ++ (acts.take n).drop m := by
      have htake := (List.take_append_drop m (acts.take n)).symm
      rwa [List.take_take, Nat.min_eq_left hle] at htake
    rw [hsplit, run_append, run_append]
    congr 1
    apply h.run_settled (List.take_subset _ _)
    intro a ha
    exact h.settled_run (List.take_subset _ _) (List.take_subset _ _ ha) s (.inr ha)

/-- **Prefixes that are sent again and again come to the longest of them.** -/
theorem Settles.sends (h : Settles step settled acts) (s : S) (m : ℕ) (ns : List ℕ) :
    ns.foldl (fun s n => run step s (acts.take n)) (run step s (acts.take m)) =
      run step s (acts.take (ns.foldl max m)) := by
  induction ns generalizing m with
  | nil => rfl
  | cons n ns ih =>
      rw [List.foldl_cons, h.take_take, ih]
      rfl

end Sends

end Runs
