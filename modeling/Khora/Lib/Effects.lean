import Mathlib.Data.List.Induction

/-!
# Programs that await

A program awaits calls that may commit something and may raise, and between them it sets
marks.  What it can do is the set of its runs: the events of the run, in order, and how it
ends.  Nothing is assumed of the calls, so that an exception may come at every await.

* `dirty` — whether something was committed after the last mark.
* `dirty_append_mark`, `dirty_eq_false_of_not_mem` — the two ways not to be.
-/

namespace Effects

/-- Something is committed, or the mark is set. -/
inductive Event where
  | commit
  | mark
deriving DecidableEq, Repr

/-- The runs of a program: their events and their ends. -/
def Program (E α : Type) := List Event → Except E α → Prop

variable {E α β X : Type}

instance : Monad (Program E) where
  pure a := fun t r => t = [] ∧ r = .ok a
  bind b f := fun t r => (∃ e, b t (.error e) ∧ r = .error e) ∨
    ∃ a t₁ t₂, b t₁ (.ok a) ∧ f a t₂ r ∧ t = t₁ ++ t₂

/-- Await a call, which may commit something if it `writes`, and may raise. -/
def await (writes : Bool) : Program E Unit := fun t _ => t = [] ∨ (writes = true ∧ t = [.commit])

def mark : Program E Unit := fun t r => t = [.mark] ∧ r = .ok ()

def raise (e : E) : Program E α := fun t r => t = [] ∧ r = .error e

/-- `try` with a handler, which may raise again. -/
def handle (b : Program E α) (h : E → Program E α) : Program E α := fun t r =>
  (∃ a, r = .ok a ∧ b t (.ok a)) ∨ ∃ e t₁ t₂, b t₁ (.error e) ∧ h e t₂ r ∧ t = t₁ ++ t₂

/-- `try` with `finally`. -/
def ensure (b : Program E α) (f : Program E Unit) : Program E α := do
  let a ← handle b fun e => do
    f
    raise e
  f
  pure a

/-- `if` without `else`. -/
def when (c : Bool) (b : Program E Unit) : Program E Unit := if c then b else pure ()

/-- A loop over a list. -/
def each (xs : List X) (f : X → Program E Unit) : Program E Unit :=
  match xs with
  | [] => pure ()
  | x :: xs => do
      f x
      each xs f

/-- A loop that counts. -/
def count (xs : List X) (f : X → Program E ℕ) : Program E ℕ :=
  match xs with
  | [] => pure 0
  | x :: xs => do
      let n ← f x
      let rest ← count xs f
      pure (n + rest)

/-- The events of several runs, each in its own order. -/
def Interleaves (ts : List (List Event)) (t : List Event) : Prop :=
  t.Perm ts.flatten ∧ ∀ u ∈ ts, u.Sublist t

/-- `gather`: the programs run at the same time, and one that raises ends it. -/
def gather (bs : List (Program E α)) : Program E (List α) := fun t r =>
  ∃ runs : List (List Event × Except E α), List.Forall₂ (fun b run => b run.1 run.2) bs runs ∧
    Interleaves (runs.map Prod.fst) t ∧
    ((∃ as, runs.map Prod.snd = as.map .ok ∧ r = .ok as) ∨
      ∃ e, .error e ∈ runs.map Prod.snd ∧ r = .error e)

section Runs

variable {b : Program E α} {f : α → Program E β} {t : List Event}

/-- A run that ends well ran both parts well. -/
theorem bind_ok {c : β} (h : (b >>= f) t (.ok c)) :
    ∃ a t₁ t₂, b t₁ (.ok a) ∧ f a t₂ (.ok c) ∧ t = t₁ ++ t₂ := by
  rcases h with ⟨e, -, heq⟩ | h
  · cases heq
  · exact h

theorem bind_intro (t₁ t₂ : List Event) (a : α) {r : Except E β} (h₁ : b t₁ (.ok a)) (h₂ : f a t₂ r) :
    (b >>= f) (t₁ ++ t₂) r :=
  .inr ⟨a, t₁, t₂, h₁, h₂, rfl⟩

end Runs

/-! ## Programs that end with a mark -/

/-- A run that ends well ends with a mark. -/
def Seals (b : Program E α) : Prop := ∀ t a, b t (.ok a) → ∃ t', t = t' ++ [.mark]

/-- A run that ends well does nothing at all. -/
def Idle (b : Program E α) : Prop := ∀ t a, b t (.ok a) → t = []

section Seals

variable {b : Program E α} {f : α → Program E β}

theorem seals_mark : Seals (mark : Program E Unit) := by
  rintro t a ⟨rfl, -⟩
  exact ⟨[], rfl⟩

theorem seals_bind (hf : ∀ a, Seals (f a)) : Seals (b >>= f) := by
  intro t c h
  obtain ⟨a, t₁, t₂, -, h₂, rfl⟩ := bind_ok h
  obtain ⟨t', rfl⟩ := hf a t₂ c h₂
  exact ⟨t₁ ++ t', (List.append_assoc _ _ _).symm⟩

theorem seals_bind_idle (hb : Seals b) (hf : ∀ a, Idle (f a)) : Seals (b >>= f) := by
  intro t c h
  obtain ⟨a, t₁, t₂, h₁, h₂, rfl⟩ := bind_ok h
  rw [hf a t₂ c h₂, List.append_nil]
  exact hb t₁ a h₁

theorem seals_ite {c : Prop} [Decidable c] {b' : Program E α} (hb : Seals b) (hb' : Seals b') :
    Seals (if c then b else b') := by
  split
  · exact hb
  · exact hb'

theorem idle_pure (a : α) : Idle (pure a : Program E α) := by
  rintro t c ⟨rfl, -⟩
  rfl

theorem idle_read : Idle (await false : Program E Unit) := by
  rintro t c (rfl | ⟨h, -⟩)
  · rfl
  · cases h

theorem idle_when {c : Bool} {b : Program E Unit} (hb : Idle b) : Idle (when c b) := by
  unfold when
  split
  · exact hb
  · exact idle_pure ()

end Seals

/-! ## What is committed and not marked -/

/-- Something was committed after the last mark. -/
def dirty (t : List Event) : Bool :=
  t.foldl (fun _ e => decide (e = .commit)) false

theorem dirty_append_mark (t : List Event) : dirty (t ++ [.mark]) = false := by
  rw [dirty, List.foldl_append]
  rfl

theorem dirty_append_commit (t : List Event) : dirty (t ++ [.commit]) = true := by
  rw [dirty, List.foldl_append]
  rfl

theorem dirty_eq_false_of_not_mem {t : List Event} (h : Event.commit ∉ t) : dirty t = false := by
  induction t using List.reverseRecOn with
  | nil => rfl
  | append_singleton t e _ =>
      cases e with
      | commit => exact absurd (List.mem_append_right _ List.mem_cons_self) h
      | mark => exact dirty_append_mark t

end Effects
