import Mathlib.Data.Bool.Basic
import Mathlib.Data.List.Basic

/-!
# Three-valued logic

The truth values of SQL: true, false and unknown (`NULL`).  A row is selected only
when its condition is true.

* `all_eq_true`, `any_eq_true` — the lists of truth values of which a conjunction or
  disjunction is true.
* `all_some`, `any_some` — on known truth values the connectives are the usual ones.
-/

namespace Ternary

/-- A truth value; `none` is unknown. -/
abbrev Truth := Option Bool

def neg (x : Truth) : Truth := x.map not

def and : Truth → Truth → Truth
  | some false, _ => some false
  | some true, y => y
  | none, some false => some false
  | none, _ => none

def or : Truth → Truth → Truth
  | some true, _ => some true
  | some false, y => y
  | none, some true => some true
  | none, _ => none

/-- A chain of conjunctions. -/
def all (l : List Truth) : Truth := l.foldr and (some true)

/-- A chain of disjunctions. -/
def any (l : List Truth) : Truth := l.foldr or (some false)

/-- `coalesce(x, b)`. -/
def coalesce (x : Truth) (b : Bool) : Truth := some (x.getD b)

@[simp] theorem neg_some (b : Bool) : neg (some b) = some !b := rfl

@[simp] theorem neg_none : neg none = none := rfl

@[simp] theorem coalesce_some (b c : Bool) : coalesce (some b) c = some b := rfl

@[simp] theorem coalesce_none (c : Bool) : coalesce none c = some c := rfl

@[simp] theorem all_nil : all [] = some true := rfl

@[simp] theorem any_nil : any [] = some false := rfl

@[simp] theorem all_cons (x : Truth) (l : List Truth) : all (x :: l) = and x (all l) := rfl

@[simp] theorem any_cons (x : Truth) (l : List Truth) : any (x :: l) = or x (any l) := rfl

@[simp] theorem and_some (a b : Bool) : and (some a) (some b) = some (a && b) := by
  cases a <;> rfl

@[simp] theorem or_some (a b : Bool) : or (some a) (some b) = some (a || b) := by
  cases a <;> rfl

@[simp] theorem or_some_false (x : Truth) : or x (some false) = x := by
  rcases x with _ | (_ | _) <;> rfl

@[simp] theorem and_some_true (x : Truth) : and x (some true) = x := by
  rcases x with _ | (_ | _) <;> rfl

theorem neg_eq_some {x : Truth} {b : Bool} : neg x = some b ↔ x = some !b := by
  cases x with
  | none => simp
  | some a => cases a <;> cases b <;> simp

theorem and_eq_true {x y : Truth} : and x y = some true ↔ x = some true ∧ y = some true := by
  rcases x with _ | (_ | _) <;> rcases y with _ | (_ | _) <;> simp [and]

theorem and_eq_false {x y : Truth} : and x y = some false ↔ x = some false ∨ y = some false := by
  rcases x with _ | (_ | _) <;> rcases y with _ | (_ | _) <;> simp [and]

theorem or_eq_true {x y : Truth} : or x y = some true ↔ x = some true ∨ y = some true := by
  rcases x with _ | (_ | _) <;> rcases y with _ | (_ | _) <;> simp [or]

theorem or_eq_false {x y : Truth} : or x y = some false ↔ x = some false ∧ y = some false := by
  rcases x with _ | (_ | _) <;> rcases y with _ | (_ | _) <;> simp [or]

theorem all_eq_true {l : List Truth} : all l = some true ↔ ∀ x ∈ l, x = some true := by
  induction l with
  | nil => simp
  | cons x l ih => rw [all_cons, and_eq_true, ih, List.forall_mem_cons]

theorem any_eq_true {l : List Truth} : any l = some true ↔ ∃ x ∈ l, x = some true := by
  induction l with
  | nil => simp
  | cons x l ih => rw [any_cons, or_eq_true, ih, List.exists_mem_cons_iff]

variable {α : Type*}

theorem all_some (l : List α) (f : α → Bool) : all (l.map fun a => some (f a)) = some (l.all f) := by
  induction l with
  | nil => rfl
  | cons a l ih => simp [ih]

theorem any_some (l : List α) (f : α → Bool) : any (l.map fun a => some (f a)) = some (l.any f) := by
  induction l with
  | nil => rfl
  | cons a l ih => simp [ih]

end Ternary
