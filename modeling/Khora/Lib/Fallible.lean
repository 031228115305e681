import Mathlib.Data.List.Forall2

/-!
# Tests that may fail

A test in a language with exceptions either answers a boolean or raises.  It is
modelled as an `Except ε Bool`, and the language's short-circuiting `all` and
`any` over a list are `List.allM` and `List.anyM` in that monad: they stop at the
first answer that decides, and a failure that is reached is the failure of the
whole.

* `allM_eq_ok_true`, `anyM_eq_ok_false` — the answer that needs every element.
* `exists_of_allM_eq_ok_false`, `exists_of_anyM_eq_ok_true` — the answer that
  needs one element, which the element then gives.
* `allM_total`, `anyM_total` — if no element fails, the whole is the boolean
  fold of the elements' answers.
* `returns_allM`, `returns_anyM` — and in any case it returns.
* `Alike.bind`, `Alike.mapM` — two computations step by step.
* `mapM_eq_ok`, `returns_mapM`, `forM_eq_ok` — maps and checks over a list.
-/

namespace Fallible

variable {ε α β : Type}

attribute [local simp] Except.bind Except.map Except.pure List.allM List.anyM

/-- Peel one step of a computation that returned. -/
theorem bind_eq_ok {x : Except ε α} {f : α → Except ε β} {b : β} :
    (x >>= f) = .ok b ↔ ∃ a, x = .ok a ∧ f a = .ok b := by
  match x with
  | .error e => simp [bind, Except.bind]
  | .ok a => simp [bind, Except.bind]

theorem map_eq_ok {x : Except ε α} {f : α → β} {b : β} :
    (f <$> x) = .ok b ↔ ∃ a, x = .ok a ∧ f a = b := by
  cases x with
  | error e => simp [Functor.map, Except.map]
  | ok a => simp [Functor.map, Except.map]

/-- A computation returned, whatever the value. -/
def Returns (x : Except ε α) : Prop := ∃ a, x = .ok a

@[simp] theorem returns_ok (a : α) : Returns (.ok a : Except ε α) := ⟨a, rfl⟩

@[simp] theorem not_returns_error (e : ε) : ¬ Returns (.error e : Except ε α) := by
  rintro ⟨a, h⟩
  cases h

theorem returns_bind {x : Except ε α} {f : α → Except ε β} :
    Returns (x >>= f) ↔ ∃ a, x = .ok a ∧ Returns (f a) := by
  cases x <;> simp [Returns, bind, Except.bind]

theorem returns_map {x : Except ε α} {f : α → β} : Returns (f <$> x) ↔ Returns x := by
  cases x <;> simp [Returns, Functor.map, Except.map]

theorem returns_bind_ok {x : Except ε α} {f : α → β} :
    Returns (x >>= fun a => .ok (f a)) ↔ Returns x := by
  cases x <;> simp [bind, Except.bind]

/-- Two computations in a row. -/
theorem returns_pair {γ : Type} {x : Except ε α} {y : Except ε β} {f : α → β → γ} :
    Returns (do let a ← x; let b ← y; .ok (f a b) : Except ε γ) ↔ Returns x ∧ Returns y := by
  cases x with
  | error e => simp [bind, Except.bind]
  | ok a => cases y <;> simp [bind, Except.bind]

/-- The negation of a test. -/
def notE (x : Except ε Bool) : Except ε Bool := (! ·) <$> x

@[simp] theorem notE_ok (b : Bool) : notE (.ok b : Except ε Bool) = .ok !b := rfl

@[simp] theorem notE_error (e : ε) : notE (.error e : Except ε Bool) = .error e := rfl

theorem notE_eq_ok {x : Except ε Bool} {b : Bool} : notE x = .ok b ↔ x = .ok !b := by
  cases x with
  | error e => simp
  | ok a => cases a <;> cases b <;> simp

/-! ## Short-circuiting folds -/

variable {f g : α → Except ε Bool} {l : List α}

theorem allM_cons_ok_true {a : α} (h : f a = .ok true) : (a :: l).allM f = l.allM f := by
  simp [List.allM, h, bind, Except.bind]

theorem allM_cons_ok_false {a : α} (h : f a = .ok false) : (a :: l).allM f = .ok false := by
  simp [List.allM, h, bind, Except.bind, pure, Except.pure]

theorem allM_cons_error {a : α} {e : ε} (h : f a = .error e) : (a :: l).allM f = .error e := by
  simp [List.allM, h, bind, Except.bind]

theorem anyM_cons_ok_true {a : α} (h : f a = .ok true) : (a :: l).anyM f = .ok true := by
  simp [List.anyM, h, bind, Except.bind, pure, Except.pure]

theorem anyM_cons_ok_false {a : α} (h : f a = .ok false) : (a :: l).anyM f = l.anyM f := by
  simp [List.anyM, h, bind, Except.bind]

theorem anyM_cons_error {a : α} {e : ε} (h : f a = .error e) : (a :: l).anyM f = .error e := by
  simp [List.anyM, h, bind, Except.bind]

theorem allM_singleton (f : α → Except ε Bool) (a : α) : [a].allM f = f a := by
  cases h : f a with
  | error e => exact allM_cons_error h
  | ok b =>
      cases b with
      | false => exact allM_cons_ok_false h
      | true => exact allM_cons_ok_true h

/-- A conjunction answers `true` exactly when every conjunct does. -/
theorem allM_eq_ok_true : l.allM f = .ok true ↔ ∀ a ∈ l, f a = .ok true := by
  induction l with
  | nil => simp [List.allM, pure, Except.pure]
  | cons a l ih =>
      cases h : f a with
      | error e => rw [allM_cons_error h]; simp [h]
      | ok b =>
          cases b with
          | false => rw [allM_cons_ok_false h]; simp [h]
          | true => rw [allM_cons_ok_true h, ih]; simp [h]

/-- A disjunction answers `false` exactly when every disjunct does. -/
theorem anyM_eq_ok_false : l.anyM f = .ok false ↔ ∀ a ∈ l, f a = .ok false := by
  induction l with
  | nil => simp [List.anyM, pure, Except.pure]
  | cons a l ih =>
      cases h : f a with
      | error e => rw [anyM_cons_error h]; simp [h]
      | ok b =>
          cases b with
          | false => rw [anyM_cons_ok_false h, ih]; simp [h]
          | true => rw [anyM_cons_ok_true h]; simp [h]

/-- A conjunction that answers `false` was decided by one of its conjuncts. -/
theorem exists_of_allM_eq_ok_false (h : l.allM f = .ok false) : ∃ a ∈ l, f a = .ok false := by
  induction l with
  | nil => simp [List.allM, pure, Except.pure] at h
  | cons a l ih =>
      cases ha : f a with
      | error e => rw [allM_cons_error ha] at h; cases h
      | ok b =>
          cases b with
          | false => exact ⟨a, List.mem_cons_self, ha⟩
          | true =>
              rw [allM_cons_ok_true ha] at h
              obtain ⟨x, hx, hfx⟩ := ih h
              exact ⟨x, List.mem_cons_of_mem _ hx, hfx⟩

/-- A disjunction that answers `true` was decided by one of its disjuncts. -/
theorem exists_of_anyM_eq_ok_true (h : l.anyM f = .ok true) : ∃ a ∈ l, f a = .ok true := by
  induction l with
  | nil => simp [List.anyM, pure, Except.pure] at h
  | cons a l ih =>
      cases ha : f a with
      | error e => rw [anyM_cons_error ha] at h; cases h
      | ok b =>
          cases b with
          | true => exact ⟨a, List.mem_cons_self, ha⟩
          | false =>
              rw [anyM_cons_ok_false ha] at h
              obtain ⟨x, hx, hfx⟩ := ih h
              exact ⟨x, List.mem_cons_of_mem _ hx, hfx⟩

/-- If no conjunct fails, the conjunction is the boolean one. -/
theorem allM_total {v : α → Bool} (h : ∀ a ∈ l, f a = .ok (v a)) : l.allM f = .ok (l.all v) := by
  induction l with
  | nil => rfl
  | cons a l ih =>
      have ha : f a = .ok (v a) := h a List.mem_cons_self
      have hl := ih fun x hx => h x (List.mem_cons_of_mem _ hx)
      cases hv : v a with
      | false => rw [allM_cons_ok_false (ha.trans (by rw [hv]))]; simp [hv]
      | true => rw [allM_cons_ok_true (ha.trans (by rw [hv])), hl]; simp [hv]

/-- If no disjunct fails, the disjunction is the boolean one. -/
theorem anyM_total {v : α → Bool} (h : ∀ a ∈ l, f a = .ok (v a)) : l.anyM f = .ok (l.any v) := by
  induction l with
  | nil => rfl
  | cons a l ih =>
      have ha : f a = .ok (v a) := h a List.mem_cons_self
      have hl := ih fun x hx => h x (List.mem_cons_of_mem _ hx)
      cases hv : v a with
      | true => rw [anyM_cons_ok_true (ha.trans (by rw [hv]))]; simp [hv]
      | false => rw [anyM_cons_ok_false (ha.trans (by rw [hv])), hl]; simp [hv]

theorem returns_allM (h : ∀ a ∈ l, Returns (f a)) : Returns (l.allM f) := by
  induction l with
  | nil => exact ⟨true, rfl⟩
  | cons a l ih =>
      obtain ⟨b, hb⟩ := h a List.mem_cons_self
      have hl := ih fun x hx => h x (List.mem_cons_of_mem _ hx)
      cases b with
      | false => exact ⟨false, allM_cons_ok_false hb⟩
      | true => rwa [allM_cons_ok_true hb]

theorem returns_anyM (h : ∀ a ∈ l, Returns (f a)) : Returns (l.anyM f) := by
  induction l with
  | nil => exact ⟨false, rfl⟩
  | cons a l ih =>
      obtain ⟨b, hb⟩ := h a List.mem_cons_self
      have hl := ih fun x hx => h x (List.mem_cons_of_mem _ hx)
      cases b with
      | true => exact ⟨true, anyM_cons_ok_true hb⟩
      | false => rwa [anyM_cons_ok_false hb]

/-! ## Maps -/

section Map

variable {f : α → Except ε β}

theorem mapM_cons (a : α) (l : List α) :
    (a :: l).mapM f = f a >>= fun b => l.mapM f >>= fun bs => .ok (b :: bs) := by
  rw [List.mapM_cons]
  rfl

/-- A map returns the results of its elements, in order. -/
theorem mapM_eq_ok {l : List α} {bs : List β} :
    l.mapM f = .ok bs ↔ List.Forall₂ (fun a b => f a = .ok b) l bs := by
  induction l generalizing bs with
  | nil =>
      rw [List.mapM_nil, List.forall₂_nil_left_iff]
      exact ⟨fun h => (Except.ok.inj h).symm, fun h => by rw [h]; rfl⟩
  | cons a l ih =>
      simp only [mapM_cons, bind_eq_ok, Except.ok.injEq, List.forall₂_cons_left_iff, ih]
      constructor
      · rintro ⟨b, hb, bs, hbs, rfl⟩
        exact ⟨b, bs, hb, hbs, rfl⟩
      · rintro ⟨b, bs, hb, hbs, rfl⟩
        exact ⟨b, hb, bs, hbs, rfl⟩

theorem exists_of_mem_mapM {l : List α} {bs : List β} (h : l.mapM f = .ok bs) {b : β}
    (hb : b ∈ bs) : ∃ a ∈ l, f a = .ok b := by
  induction mapM_eq_ok.mp h with
  | nil => cases hb
  | cons hab hl ih =>
      rcases List.mem_cons.mp hb with rfl | hb
      · exact ⟨_, List.mem_cons_self, hab⟩
      · obtain ⟨a, ha, hfa⟩ := ih (mapM_eq_ok.mpr hl) hb
        exact ⟨a, List.mem_cons_of_mem _ ha, hfa⟩

theorem returns_mapM {l : List α} (h : ∀ a ∈ l, Returns (f a)) : Returns (l.mapM f) := by
  induction l with
  | nil => exact ⟨[], rfl⟩
  | cons a l ih =>
      obtain ⟨b, hb⟩ := h a List.mem_cons_self
      obtain ⟨bs, hbs⟩ := ih fun x hx => h x (List.mem_cons_of_mem _ hx)
      exact ⟨b :: bs, by rw [mapM_cons, hb, hbs]; rfl⟩

theorem returns_mapM_iff {l : List α} : Returns (l.mapM f) ↔ ∀ a ∈ l, Returns (f a) := by
  refine ⟨?_, returns_mapM⟩
  induction l with
  | nil => simp
  | cons a l ih =>
      rw [mapM_cons]
      intro h
      obtain ⟨ha, hl⟩ := returns_pair.mp h
      exact List.forall_mem_cons.mpr ⟨ha, ih hl⟩

/-- A check over a list passes exactly when it passes on every element. -/
theorem forM_eq_ok {f : α → Except ε Unit} {l : List α} :
    l.forM f = .ok () ↔ ∀ a ∈ l, f a = .ok () := by
  induction l with
  | nil => simp [List.forM, pure, Except.pure]
  | cons a l ih =>
      have hcons : (a :: l).forM f = f a >>= fun _ => l.forM f := rfl
      rw [hcons, bind_eq_ok, List.forall_mem_cons, ← ih]
      constructor
      · rintro ⟨u, hu, hl⟩
        exact ⟨hu, hl⟩
      · rintro ⟨ha, hl⟩
        exact ⟨(), ha, hl⟩

/-- A comprehension `[a for a in l if f a]`, with the exceptions of its condition. -/
def filterE (f : α → Except ε Bool) : List α → Except ε (List α)
  | [] => .ok []
  | a :: l => do
      let keep ← f a
      let rest ← filterE f l
      .ok (if keep then a :: rest else rest)

/-- The condition returned true. -/
def accepts : Except ε Bool → Bool
  | .ok b => b
  | .error _ => false

theorem accepts_iff {x : Except ε Bool} : accepts x = true ↔ x = .ok true := by
  cases x <;> simp [accepts]

/-- A comprehension returns exactly when its condition returns on every element. -/
theorem filterE_eq_ok {f : α → Except ε Bool} {l r : List α} :
    filterE f l = .ok r ↔ (∀ a ∈ l, Returns (f a)) ∧ r = l.filter fun a => accepts (f a) := by
  induction l generalizing r with
  | nil => simp [filterE, eq_comm]
  | cons a l ih =>
      cases ha : f a with
      | error e => simp [filterE, ha, bind, Except.bind]
      | ok keep =>
          have hcons : filterE f (a :: l) =
              filterE f l >>= fun rest => .ok (if keep then a :: rest else rest) := by
            rw [filterE, ha]
            rfl
          simp only [hcons, ha, List.forall_mem_cons, returns_ok, true_and]
          constructor
          · intro h
            obtain ⟨rest, hrest, hr⟩ := bind_eq_ok.mp h
            obtain ⟨hall, rfl⟩ := ih.mp hrest
            refine ⟨hall, ?_⟩
            cases keep <;> simpa [ha, accepts, eq_comm] using hr
          · rintro ⟨hall, rfl⟩
            refine bind_eq_ok.mpr ⟨_, ih.mpr ⟨hall, rfl⟩, ?_⟩
            cases keep <;> simp [ha, accepts]

theorem filterE_congr {f g : α → Except ε Bool} {l : List α} (h : ∀ a ∈ l, f a = g a) :
    filterE f l = filterE g l := by
  induction l with
  | nil => rfl
  | cons a l ih =>
      obtain ⟨ha, hl⟩ := List.forall_mem_cons.mp h
      rw [filterE, filterE, ha, ih hl]

theorem returns_filterE {f : α → Except ε Bool} {l : List α} (h : ∀ a ∈ l, Returns (f a)) :
    Returns (filterE f l) :=
  ⟨_, filterE_eq_ok.mpr ⟨h, rfl⟩⟩

end Map

/-! ## Folds -/

/-- What every step of a fold keeps, the fold keeps. -/
theorem foldlM_invariant {P : β → Prop} {f : β → α → Except ε β} {l : List α}
    (hstep : ∀ a ∈ l, ∀ b b', P b → f b a = .ok b' → P b') :
    ∀ {b r : β}, P b → l.foldlM f b = .ok r → P r := by
  induction l with
  | nil =>
      intro b r hb h
      cases h
      exact hb
  | cons a l ih =>
      intro b r hb h
      rw [List.foldlM_cons] at h
      obtain ⟨c, hc, h⟩ := bind_eq_ok.mp h
      exact ih (fun x hx => hstep x (by simp [hx])) (hstep a (by simp) b c hb hc) h

/-- A fold whose steps return, and keep what lets the next one return, returns. -/
theorem returns_foldlM {P : β → Prop} {f : β → α → Except ε β} {l : List α}
    (hstep : ∀ a ∈ l, ∀ b, P b → ∃ b', f b a = .ok b' ∧ P b') :
    ∀ {b : β}, P b → ∃ r, l.foldlM f b = .ok r ∧ P r := by
  induction l with
  | nil => exact fun {b} hb => ⟨b, rfl, hb⟩
  | cons a l ih =>
      intro b hb
      obtain ⟨c, hc, hPc⟩ := hstep a (by simp) b hb
      obtain ⟨r, hr, hPr⟩ := ih (fun x hx => hstep x (by simp [hx])) hPc
      refine ⟨r, ?_, hPr⟩
      rw [List.foldlM_cons]
      exact bind_eq_ok.mpr ⟨c, hc, hr⟩

/-! ## Exact conditions -/

/-- `x` returns exactly when `p` holds, and then a value with `q`. -/
structure ReturnsIff (x : Except ε α) (p : Prop) (q : α → Prop) : Prop where
  returns : Returns x ↔ p
  value : ∀ a, x = .ok a → q a

namespace ReturnsIff

variable {x : Except ε α} {f : α → Except ε β} {p p' : Prop} {q q' : α → Prop} {r : β → Prop}

theorem ok {a : α} (h : q a) : ReturnsIff (.ok a : Except ε α) True q where
  returns := by simp
  value := by
    rintro b hb
    cases hb
    exact h

theorem ok_of {a : α} (hp : p) (h : q a) : ReturnsIff (.ok a : Except ε α) p q where
  returns := iff_of_true (returns_ok a) hp
  value := (ok h).value

theorem error {e : ε} : ReturnsIff (.error e : Except ε α) False q where
  returns := by simp
  value := by
    rintro b hb
    cases hb

theorem congr (h : ReturnsIff x p q) (hp : p ↔ p') (hq : ∀ a, q a → q' a) :
    ReturnsIff x p' q' where
  returns := h.returns.trans hp
  value := fun a ha => hq a (h.value a ha)

theorem bind (hx : ReturnsIff x p q) (hf : ∀ a, q a → ReturnsIff (f a) p' r) :
    ReturnsIff (x >>= f) (p ∧ p') r where
  returns := by
    rw [returns_bind]
    constructor
    · rintro ⟨a, ha, hfa⟩
      exact ⟨hx.returns.mp ⟨a, ha⟩, (hf a (hx.value a ha)).returns.mp hfa⟩
    · rintro ⟨hp, hp'⟩
      obtain ⟨a, ha⟩ := hx.returns.mpr hp
      exact ⟨a, ha, (hf a (hx.value a ha)).returns.mpr hp'⟩
  value := by
    intro b hb
    obtain ⟨a, ha, hfa⟩ := bind_eq_ok.mp hb
    exact (hf a (hx.value a ha)).value b hfa

theorem map {g : α → β} (hx : ReturnsIff x p q) (hg : ∀ a, q a → r (g a)) :
    ReturnsIff (g <$> x) p r where
  returns := returns_map.trans hx.returns
  value := by
    intro b hb
    obtain ⟨a, ha, rfl⟩ := map_eq_ok.mp hb
    exact hg a (hx.value a ha)

theorem mapM {l : List α} {p : α → Prop} {s : α → β → Prop}
    (h : ∀ a ∈ l, ReturnsIff (f a) (p a) (s a)) :
    ReturnsIff (l.mapM f) (∀ a ∈ l, p a) (List.Forall₂ s l) := by
  induction l with
  | nil => exact ⟨by simp [Returns, pure, Except.pure], by
      intro bs hbs
      cases hbs
      exact .nil⟩
  | cons a l ih =>
      rw [mapM_cons, List.forall_mem_cons]
      refine (h a List.mem_cons_self).bind fun b hb => ?_
      refine ((ih fun x hx => h x (List.mem_cons_of_mem _ hx)).bind fun bs hbs =>
        ReturnsIff.ok (List.Forall₂.cons hb hbs)).congr (by simp) fun _ h => h

end ReturnsIff

/-! ## Two computations -/

/-- Both return, related values, or both fail with one error. -/
inductive Alike (r : α → β → Prop) : Except ε α → Except ε β → Prop
  | ok {a : α} {b : β} (h : r a b) : Alike r (.ok a) (.ok b)
  | error (e : ε) : Alike r (.error e) (.error e)

namespace Alike

variable {γ δ : Type} {r : α → β → Prop} {s : γ → δ → Prop} {x : Except ε α} {y : Except ε β}

theorem bind {f : α → Except ε γ} {g : β → Except ε δ} (hx : Alike r x y)
    (hf : ∀ a b, r a b → Alike s (f a) (g b)) : Alike s (x >>= f) (y >>= g) := by
  cases hx with
  | ok h => exact hf _ _ h
  | error e => exact .error e

theorem map {f : α → γ} {g : β → δ} (hx : Alike r x y) (hf : ∀ a b, r a b → s (f a) (g b)) :
    Alike s (f <$> x) (g <$> y) := by
  cases hx with
  | ok h => exact .ok (hf _ _ h)
  | error e => exact .error e

theorem mono {r' : α → β → Prop} (hx : Alike r x y) (h : ∀ a b, r a b → r' a b) : Alike r' x y := by
  cases hx with
  | ok hr => exact .ok (h _ _ hr)
  | error e => exact .error e

theorem refl (x : Except ε α) : Alike Eq x x := by
  cases x with
  | ok a => exact .ok rfl
  | error e => exact .error e

theorem mapM {ι : Type} {f : ι → Except ε α} {g : ι → Except ε β} {l : List ι}
    (h : ∀ i ∈ l, Alike r (f i) (g i)) : Alike (List.Forall₂ r) (l.mapM f) (l.mapM g) := by
  induction l with
  | nil => exact .ok .nil
  | cons i l ih =>
      rw [List.forall_mem_cons] at h
      rw [mapM_cons, mapM_cons]
      exact h.1.bind fun a b hab => (ih h.2).bind fun as bs hs => .ok (.cons hab hs)

/-- The second computation is the first one, mapped. -/
theorem map_eq {f : α → β} (h : Alike (fun a b => f a = b) x y) : f <$> x = y := by
  cases h with
  | ok h => exact congrArg Except.ok h
  | error e => rfl

end Alike

end Fallible
