import Mathlib.Logic.Function.Iterate
import Mathlib.Logic.Relation
import Mathlib.Data.Finset.Card

/-!
# Disjoint sets as a forest of parents

A parent function points every element at another of its set, and a root at itself.  The
sets are the elements with one root.  Shortening a path leaves them alone; linking one root
to another joins two of them and no more.

* `RootOf.unique`, `same_equivalence` — an element has one root at most, and having one root
  is an equivalence if every element has one.
* `rootOf_shorten` — pointing an element at its root changes no root.
* `rootOf_link`, `joins_link` — the roots, and the sets, after a link.
* `connected_of_joins` — joining pair after pair gives the least equivalence above them all.
-/

namespace DisjointSets

variable {α : Type*}

/-- Following the parents from `x` ends in the root `r`. -/
inductive RootOf (parent : α → α) : α → α → Prop where
  | root {r : α} (h : parent r = r) : RootOf parent r r
  | step {x r : α} (h : parent x ≠ x) (hr : RootOf parent (parent x) r) : RootOf parent x r

/-- Every element has a root. -/
def Grounded (parent : α → α) : Prop := ∀ x, ∃ r, RootOf parent x r

/-- The two elements have one root. -/
def Same (parent : α → α) (x y : α) : Prop := ∃ r, RootOf parent x r ∧ RootOf parent y r

section Roots

variable {parent : α → α} {x y r s : α}

theorem RootOf.isRoot (h : RootOf parent x r) : parent r = r := by
  induction h with
  | root h => exact h
  | step _ _ ih => exact ih

theorem RootOf.eq_of_isRoot (h : RootOf parent x r) (hx : parent x = x) : r = x := by
  cases h with
  | root _ => rfl
  | step hne _ => exact absurd hx hne

theorem RootOf.of_parent (hx : parent x ≠ x) (h : RootOf parent x r) :
    RootOf parent (parent x) r := by
  cases h with
  | root h => exact absurd h hx
  | step _ hr => exact hr

theorem RootOf.unique (h : RootOf parent x r) : ∀ {s}, RootOf parent x s → r = s := by
  induction h with
  | root h => exact fun hs => (hs.eq_of_isRoot h).symm
  | step hne _ ih => exact fun hs => ih (hs.of_parent hne)

theorem Same.symm (h : Same parent x y) : Same parent y x := by
  obtain ⟨r, hx, hy⟩ := h
  exact ⟨r, hy, hx⟩

/-- Having one root is an equivalence. -/
theorem same_equivalence (hg : Grounded parent) : Equivalence (Same parent) where
  refl x := by
    obtain ⟨r, hr⟩ := hg x
    exact ⟨r, hr, hr⟩
  symm h := h.symm
  trans := by
    rintro x y z ⟨r, hx, hy⟩ ⟨s, hy', hz⟩
    have hrs := hy.unique hy'
    subst hrs
    exact ⟨r, hx, hz⟩

theorem same_iff (hx : RootOf parent x r) (hy : RootOf parent y s) : Same parent x y ↔ r = s := by
  constructor
  · rintro ⟨t, hx', hy'⟩
    exact (hx.unique hx').trans (hy'.unique hy)
  · intro h
    exact ⟨r, hx, h ▸ hy⟩

end Roots

/-! ## Shorter paths -/

section Update

variable [DecidableEq α] {parent : α → α} {x r : α}

/-- **An element may point at its root.** -/
theorem rootOf_shorten (hx : RootOf parent x r) {y s : α} (hy : RootOf parent y s) :
    RootOf (Function.update parent x r) y s := by
  -- the root is a root still
  have hr : Function.update parent x r r = r := by
    by_cases h : r = x
    · rw [h, Function.update_self]
    · rw [Function.update_of_ne h]
      exact hx.isRoot
  induction hy with
  | @root y h =>
      apply RootOf.root
      by_cases hyx : y = x
      · subst hyx
        rw [Function.update_self]
        exact hx.eq_of_isRoot h
      · rw [Function.update_of_ne hyx]
        exact h
  | @step y s h hs ih =>
      by_cases hyx : y = x
      · subst hyx
        have hrs : r = s := hx.unique (.step h hs)
        subst hrs
        by_cases hry : r = y
        · subst hry
          exact .root hr
        · apply RootOf.step
          · rw [Function.update_self]
            exact hry
          · rw [Function.update_self]
            exact .root hr
      · apply RootOf.step
        · rw [Function.update_of_ne hyx]
          exact h
        · rw [Function.update_of_ne hyx]
          exact ih

/-! ## Links -/

/-- **A root linked to another**: the elements under it move to that one. -/
theorem rootOf_link {a b : α} (ha : parent a = a) (hab : a ≠ b) {y s : α}
    (hb : parent b = b) (hy : RootOf parent y s) :
    RootOf (Function.update parent b a) y (if s = b then a else s) := by
  have ha' : Function.update parent b a a = a := by
    rw [Function.update_of_ne hab]
    exact ha
  induction hy with
  | @root y h =>
      by_cases hyb : y = b
      · subst hyb
        rw [if_pos rfl]
        apply RootOf.step
        · rw [Function.update_self]
          exact hab
        · rw [Function.update_self]
          exact .root ha'
      · rw [if_neg hyb]
        apply RootOf.root
        rw [Function.update_of_ne hyb]
        exact h
  | @step y s h _ ih =>
      have hyb : y ≠ b := fun heq => h (heq ▸ hb)
      apply RootOf.step
      · rw [Function.update_of_ne hyb]
        exact h
      · rw [Function.update_of_ne hyb]
        exact ih

end Update

/-! ## Joining a pair -/

/-- `R'` is the least equivalence above `R` that relates `a` and `b`. -/
structure Joins (R : α → α → Prop) (a b : α) (R' : α → α → Prop) : Prop where
  mono : ∀ x y, R x y → R' x y
  pair : R' a b
  least : ∀ E : α → α → Prop, Equivalence E → (∀ x y, R x y → E x y) → E a b →
    ∀ x y, R' x y → E x y

/-- A pair that is related already. -/
theorem joins_of_related {R : α → α → Prop} {a b : α} (h : R a b) : Joins R a b R :=
  ⟨fun _ _ h => h, h, fun _ _ hle _ => hle⟩

/-- The pair, the other way round. -/
theorem Joins.swap {R R' : α → α → Prop} {a b : α} (h : Joins R b a R')
    (hsymm : ∀ {x y}, R' x y → R' y x) : Joins R a b R' :=
  ⟨h.mono, hsymm h.pair, fun E hE hle hab => h.least E hE hle (hE.symm hab)⟩

/-- **A link joins the sets of the two roots, and no others.** -/
theorem joins_link [DecidableEq α] {parent : α → α} (hg : Grounded parent) {a b x y : α}
    (hx : RootOf parent x a) (hy : RootOf parent y b) (hab : a ≠ b) :
    Grounded (Function.update parent b a) ∧
      Joins (Same parent) x y (Same (Function.update parent b a)) := by
  have hlink : ∀ {z s}, RootOf parent z s →
      RootOf (Function.update parent b a) z (if s = b then a else s) :=
    fun hz => rootOf_link hx.isRoot hab hy.isRoot hz
  refine ⟨?_, ?_, ?_, ?_⟩
  · intro z
    obtain ⟨s, hs⟩ := hg z
    exact ⟨_, hlink hs⟩
  · rintro z w ⟨s, hz, hw⟩
    exact ⟨_, hlink hz, hlink hw⟩
  · refine ⟨a, ?_, ?_⟩
    · simpa only [if_neg hab] using hlink hx
    · simpa using hlink hy
  · intro E hE hle hpair z w hzw
    obtain ⟨s, hs⟩ := hg z
    obtain ⟨t, ht⟩ := hg w
    rw [same_iff (hlink hs) (hlink ht)] at hzw
    -- each element is related to the first of the pair if its root moves
    have hmoved : ∀ {v u}, RootOf parent v u → u = b → E v x := by
      intro v u hv hu
      subst hu
      exact hE.trans (hle v y ⟨_, hv, hy⟩) (hE.symm hpair)
    have hkept : ∀ {v}, RootOf parent v a → E v x := fun hv => hle _ x ⟨a, hv, hx⟩
    by_cases hsb : s = b
    · rw [if_pos hsb] at hzw
      by_cases htb : t = b
      · exact hE.trans (hmoved hs hsb) (hE.symm (hmoved ht htb))
      · rw [if_neg htb] at hzw
        subst hzw
        exact hE.trans (hmoved hs hsb) (hE.symm (hkept ht))
    · rw [if_neg hsb] at hzw
      by_cases htb : t = b
      · rw [if_pos htb] at hzw
        subst hzw
        exact hE.trans (hkept hs) (hE.symm (hmoved ht htb))
      · rw [if_neg htb] at hzw
        subst hzw
        exact hle z w ⟨s, hs, ht⟩

/-- The least equivalence that relates every pair of the list. -/
def Connected (pairs : List (α × α)) : α → α → Prop := Relation.EqvGen fun x y => (x, y) ∈ pairs

theorem connected_equivalence (pairs : List (α × α)) : Equivalence (Connected pairs) :=
  Relation.EqvGen.is_equivalence _

/-- The classes of two elements are one exactly if the pairs connect them. -/
theorem mk_eq_mk_iff (pairs : List (α × α)) (x y : α) :
    Quot.mk (Connected pairs) x = Quot.mk (Connected pairs) y ↔ Connected pairs x y :=
  Quot.eq.trans (Equivalence.eqvGen_iff (connected_equivalence pairs))

section Run

variable {S : Type*} {R : S → α → α → Prop} {step : S → α × α → S} {Inv : S → Prop}
  {ok : α × α → Prop}

/-- What a run of joins keeps, what it relates, and what it cannot relate. -/
theorem joins_run (hstep : ∀ s p, Inv s → ok p → Inv (step s p) ∧ Joins (R s) p.1 p.2 (R (step s p)))
    (pairs : List (α × α)) : ∀ s, Inv s → (∀ p ∈ pairs, ok p) →
      Inv (pairs.foldl step s) ∧ (∀ x y, R s x y → R (pairs.foldl step s) x y) ∧
      (∀ p ∈ pairs, R (pairs.foldl step s) p.1 p.2) ∧
      ∀ E : α → α → Prop, Equivalence E → (∀ x y, R s x y → E x y) → (∀ p ∈ pairs, E p.1 p.2) →
        ∀ x y, R (pairs.foldl step s) x y → E x y := by
  induction pairs with
  | nil => exact fun s hs _ => ⟨hs, fun _ _ h => h, fun _ h => (by cases h), fun _ _ hle _ => hle⟩
  | cons p pairs ih =>
      intro s hs hok
      obtain ⟨hs', hjoin⟩ := hstep s p hs (hok p List.mem_cons_self)
      obtain ⟨hinv, hmono, hpairs, hleast⟩ :=
        ih (step s p) hs' fun q hq => hok q (List.mem_cons_of_mem _ hq)
      rw [List.foldl_cons]
      refine ⟨hinv, fun x y h => hmono x y (hjoin.mono x y h), ?_, ?_⟩
      · intro q hq
        rcases List.mem_cons.mp hq with rfl | hq
        · exact hmono _ _ hjoin.pair
        · exact hpairs q hq
      · intro E hE hle hp
        apply hleast E hE
        · exact hjoin.least E hE hle (hp p List.mem_cons_self)
        · exact fun q hq => hp q (List.mem_cons_of_mem _ hq)

/-- **Joining pair after pair gives the least equivalence that relates them all.** -/
theorem connected_of_joins
    (hstep : ∀ s p, Inv s → ok p → Inv (step s p) ∧ Joins (R s) p.1 p.2 (R (step s p)))
    (hequiv : ∀ s, Inv s → Equivalence (R s)) {pairs : List (α × α)} {s : S} (hs : Inv s)
    (hok : ∀ p ∈ pairs, ok p) (hstart : ∀ x y, R s x y → x = y) :
    Inv (pairs.foldl step s) ∧ ∀ x y, R (pairs.foldl step s) x y ↔ Connected pairs x y := by
  obtain ⟨hinv, -, hpairs, hleast⟩ := joins_run hstep pairs s hs hok
  refine ⟨hinv, fun x y => ⟨?_, fun h => ?_⟩⟩
  · apply hleast (Connected pairs) (connected_equivalence pairs)
    · intro x y h
      rw [hstart x y h]
      exact (connected_equivalence pairs).refl y
    · exact fun p hp => Relation.EqvGen.rel _ _ hp
  · have hE := hequiv _ hinv
    induction h with
    | rel x y hxy => exact hpairs (x, y) hxy
    | refl x => exact hE.refl x
    | symm x y _ ih => exact hE.symm ih
    | trans x y z _ _ ih ih' => exact hE.trans ih ih'

end Run

end DisjointSets
