import Mathlib.Logic.Function.Basic
import Mathlib.Data.Nat.Notation

/-!
# Namespace scopes of hooks

A namespace has one stable id and a row id for each of its versions; events carry
either.  The dispatcher compares ids after mapping both to the row id of the active
version, through a cache that it refreshes when a comparison fails on a mapping that
may have gone stale.  A lookup that fails leaves the id as it is.

* `namespaceScopeMatches_owner` — a scope matches only ids of its own namespace,
  whatever fails.
* `namespaceScopeMatches_of_current` — where no lookup fails and no id that was
  cached as its own row has been mapped anew, a scope that resolves to the active row
  matches the stable id and the active row id.
-/

namespace Khora

variable {Id Ns : Type}

/-- The ids in use: each belongs to one namespace, which has one stable id. -/
structure Namespaces (Id Ns : Type) where
  owner : Id → Ns
  stable : Ns → Id
  owner_stable : ∀ n, owner (stable n) = n

/-- `resolve_namespace` at one time, where it does not fail. -/
structure Resolver (N : Namespaces Id Ns) where
  resolve : Id → Id
  idempotent : ∀ x, resolve (resolve x) = resolve x
  separates : ∀ x y, resolve x = resolve y → N.owner x = N.owner y

namespace Resolver

variable {N : Namespaces Id Ns} (w : Resolver N)

theorem owner_resolve (x : Id) : N.owner (w.resolve x) = N.owner x :=
  w.separates _ _ (w.idempotent x)

/-- The row id of the active version. -/
def active (n : Ns) : Id := w.resolve (N.stable n)

/-- The id stands for the active version of its namespace: it is the stable id, or it
resolves to the row the stable id resolves to. -/
def Current (x : Id) : Prop := w.resolve x = w.active (N.owner x)

end Resolver

/-! ## The cache -/

/-- What the lookups of one dispatch change: the cache, and the number of resolver
calls made so far. -/
structure Lookup (Id : Type) where
  cache : Id → Option Id
  calls : ℕ

section Resolve

variable [DecidableEq Id]

/-- `_resolve_ns`.  `fails k` says that the `k`-th call of the resolver raises; a
dispatcher without resolver is one whose every call fails. -/
def resolveNs (resolve : Id → Id) (fails : ℕ → Bool) (refresh : Bool) (l : Lookup Id) (x : Id) :
    Id × Lookup Id :=
  match if refresh then none else l.cache x with
  | some cached => (cached, l)
  | none =>
      if fails l.calls then (x, { l with calls := l.calls + 1 })
      else (resolve x, ⟨Function.update l.cache x (some (resolve x)), l.calls + 1⟩)

/-- The id comes from a cached mapping to another id, which may be out of date. -/
def staleSuspect (l : Lookup Id) (x : Id) : Bool :=
  match l.cache x with
  | none => false
  | some y => decide (y ≠ x)

/-- `_namespace_scope_matches` -/
def namespaceScopeMatches (resolve : Id → Id) (fails : ℕ → Bool) (eventNs : Id) (l : Lookup Id) :
    Option Id → Bool × Lookup Id
  | none => (true, l)
  | some scopeNs =>
      let suspects := [eventNs, scopeNs].filter (staleSuspect l)
      let e := resolveNs resolve fails false l eventNs
      let s := resolveNs resolve fails false e.2 scopeNs
      if e.1 = s.1 then (true, s.2)
      else if suspects.isEmpty then (false, s.2)
      else
        let refreshed := suspects.foldl (fun l x => (resolveNs resolve fails true l x).2) s.2
        let e' := resolveNs resolve fails false refreshed eventNs
        let s' := resolveNs resolve fails false e'.2 scopeNs
        (decide (e'.1 = s'.1), s'.2)

end Resolve

/-- What the cache holds: each id is mapped inside its namespace, and an id cached as
its own row is one still. -/
structure SoundCache {N : Namespaces Id Ns} (w : Resolver N) (cache : Id → Option Id) : Prop where
  owner : ∀ x y, cache x = some y → N.owner y = N.owner x
  self : ∀ x, cache x = some x → w.resolve x = x

theorem soundCache_empty {N : Namespaces Id Ns} (w : Resolver N) : SoundCache w fun _ => none where
  owner := fun _ _ h => by cases h
  self := fun _ h => by cases h

/-- A new version keeps the cache sound if it maps no id anew that is cached as its
own row. -/
theorem SoundCache.reversion {N : Namespaces Id Ns} {w w' : Resolver N} {cache : Id → Option Id}
    (h : SoundCache w cache) (hself : ∀ x, cache x = some x → w'.resolve x = x) :
    SoundCache w' cache where
  owner := h.owner
  self := hself

theorem SoundCache.learn [DecidableEq Id] {N : Namespaces Id Ns} {w : Resolver N}
    {cache : Id → Option Id} (h : SoundCache w cache) (x : Id) :
    SoundCache w (Function.update cache x (some (w.resolve x))) where
  owner := by
    intro y z hz
    by_cases hy : y = x
    · rw [hy, Function.update_self, Option.some.injEq] at hz
      rw [hy, ← hz, w.owner_resolve]
    · rw [Function.update_of_ne hy] at hz
      exact h.owner y z hz
  self := by
    intro y hz
    by_cases hy : y = x
    · rw [hy, Function.update_self, Option.some.injEq] at hz
      rw [hy, hz]
    · rw [Function.update_of_ne hy] at hz
      exact h.self y hz

section Spec

variable [DecidableEq Id] {N : Namespaces Id Ns} {w : Resolver N} (fails : ℕ → Bool)
  {l : Lookup Id} {e x : Id}

/-- One lookup stays inside the namespace and keeps the cache sound. -/
theorem resolveNs_sound (h : SoundCache w l.cache) (refresh : Bool) (x : Id) :
    N.owner (resolveNs w.resolve fails refresh l x).1 = N.owner x ∧
      SoundCache w (resolveNs w.resolve fails refresh l x).2.cache := by
  unfold resolveNs
  split
  · rename_i cached hc
    cases refresh with
    | true => simp at hc
    | false => exact ⟨h.owner x cached (by simpa using hc), h⟩
  · by_cases hf : fails l.calls = true
    · rw [if_pos hf]
      exact ⟨rfl, h⟩
    · rw [if_neg hf]
      exact ⟨w.owner_resolve x, h.learn x⟩

theorem refresh_sound (xs : List Id) :
    ∀ l : Lookup Id, SoundCache w l.cache →
      SoundCache w (xs.foldl (fun l x => (resolveNs w.resolve fails true l x).2) l).cache := by
  induction xs with
  | nil => exact fun l h => h
  | cons x xs ih => exact fun l h => ih _ (resolveNs_sound fails h true x).2

/-- **A scope matches only its own namespace**, whatever fails, and the check keeps
the cache sound. -/
theorem namespaceScopeMatches_owner (h : SoundCache w l.cache) (e : Id) (scope : Option Id) :
    ((namespaceScopeMatches w.resolve fails e l scope).1 = true →
        ∀ x, scope = some x → N.owner e = N.owner x) ∧
      SoundCache w (namespaceScopeMatches w.resolve fails e l scope).2.cache := by
  cases scope with
  | none => exact ⟨fun _ x hx => (by cases hx), h⟩
  | some x =>
      -- two lookups that agree are of ids of one namespace
      have hpair : ∀ {l : Lookup Id}, SoundCache w l.cache →
          ((resolveNs w.resolve fails false l e).1 =
              (resolveNs w.resolve fails false (resolveNs w.resolve fails false l e).2 x).1 →
            N.owner e = N.owner x) ∧
          SoundCache w (resolveNs w.resolve fails false
            (resolveNs w.resolve fails false l e).2 x).2.cache := by
        intro l hl
        have he := resolveNs_sound fails hl false e
        have hx := resolveNs_sound fails he.2 false x
        refine ⟨fun heq => ?_, hx.2⟩
        rw [← he.1, heq, hx.1]
      have hfirst := hpair h
      have hagain := hpair (refresh_sound fails ([e, x].filter (staleSuspect l)) _ hfirst.2)
      simp only [namespaceScopeMatches]
      split
      · rename_i heq
        refine ⟨fun _ y hy => ?_, hfirst.2⟩
        cases hy
        exact hfirst.1 heq
      · split
        · exact ⟨fun hf => by simp at hf, hfirst.2⟩
        · refine ⟨fun heq y hy => ?_, hagain.2⟩
          cases hy
          exact hagain.1 (of_decide_eq_true heq)

/-! ## Without failures -/

/-- The id is not cached, or cached as what it resolves to now. -/
def Clean (w : Resolver N) (l : Lookup Id) (x : Id) : Prop :=
  l.cache x = none ∨ l.cache x = some (w.resolve x)

variable {fails}

theorem clean_of_not_suspect (h : SoundCache w l.cache) (hx : staleSuspect l x = false) :
    Clean w l x := by
  cases hc : l.cache x with
  | none => exact .inl hc
  | some y =>
      have hyx : y = x := by simpa [staleSuspect, hc] using hx
      rw [hyx] at hc
      exact .inr (by rw [h.self x hc, hc])

section Never

variable (hok : ∀ k, fails k = false)
include hok

theorem resolveNs_clean (h : Clean w l x) :
    (resolveNs w.resolve fails false l x).1 = w.resolve x := by
  rcases h with h | h
  · simp [resolveNs, h, hok]
  · simp [resolveNs, h]

theorem clean_refreshed (l : Lookup Id) (x : Id) :
    Clean w (resolveNs w.resolve fails true l x).2 x := by
  simp [Clean, resolveNs, hok]

theorem clean_resolveNs (refresh : Bool) (y : Id) (h : Clean w l x) :
    Clean w (resolveNs w.resolve fails refresh l y).2 x := by
  unfold resolveNs
  split
  · exact h
  · simp only [hok, Bool.false_eq_true, if_false]
    by_cases hxy : x = y
    · exact .inr (by simp [hxy])
    · rcases h with h | h
      · exact .inl (by simp [Function.update_of_ne hxy, h])
      · exact .inr (by simp [Function.update_of_ne hxy, h])

theorem clean_refresh (xs : List Id) (x : Id) : ∀ l : Lookup Id, x ∈ xs ∨ Clean w l x →
    Clean w (xs.foldl (fun l x => (resolveNs w.resolve fails true l x).2) l) x := by
  induction xs with
  | nil =>
      rintro l (h | h)
      · cases h
      · exact h
  | cons y ys ih =>
      rintro l (h | h)
      · apply ih
        rcases List.mem_cons.mp h with rfl | h
        · exact .inr (clean_refreshed hok l x)
        · exact .inl h
      · exact ih _ (.inr (clean_resolveNs hok true y h))

/-- **A current scope matches** every id that resolves to the same row. -/
theorem namespaceScopeMatches_of_resolve (h : SoundCache w l.cache)
    (heq : w.resolve e = w.resolve x) :
    (namespaceScopeMatches w.resolve fails e l (some x)).1 = true := by
  -- clean ids compare equal, in the order of the two lookups
  have hpair : ∀ {l : Lookup Id}, Clean w l e → Clean w l x →
      (resolveNs w.resolve fails false l e).1 =
        (resolveNs w.resolve fails false (resolveNs w.resolve fails false l e).2 x).1 := by
    intro l he hx
    rw [resolveNs_clean hok he, resolveNs_clean hok (clean_resolveNs hok false e hx), heq]
  simp only [namespaceScopeMatches]
  split
  · rfl
  · rename_i hne
    split
    · rename_i hempty
      have hnone := List.isEmpty_iff.mp hempty
      rw [List.filter_eq_nil_iff] at hnone
      exact absurd (hpair (clean_of_not_suspect h (by simpa using hnone e (by simp)))
        (clean_of_not_suspect h (by simpa using hnone x (by simp)))) hne
    · apply decide_eq_true
      -- a suspect is refreshed; the other id was clean from the start
      have hclean : ∀ y ∈ [e, x], Clean w (([e, x].filter (staleSuspect l)).foldl
          (fun l x => (resolveNs w.resolve fails true l x).2)
          (resolveNs w.resolve fails false (resolveNs w.resolve fails false l e).2 x).2) y := by
        intro y hy
        apply clean_refresh hok
        cases hs : staleSuspect l y with
        | true => exact .inl (List.mem_filter.mpr ⟨hy, hs⟩)
        | false =>
            exact .inr (clean_resolveNs hok false x
              (clean_resolveNs hok false e (clean_of_not_suspect h hs)))
      exact hpair (hclean e (by simp)) (hclean x (by simp))

/-- **A current scope matches its namespace**: the stable id and the active row id. -/
theorem namespaceScopeMatches_of_current (h : SoundCache w l.cache) {n : Ns}
    (he : e = N.stable n ∨ e = w.active n) (hx : w.Current x) (hn : N.owner x = n) :
    (namespaceScopeMatches w.resolve fails e l (some x)).1 = true := by
  apply namespaceScopeMatches_of_resolve hok h
  rw [Resolver.Current, hn] at hx
  rw [hx]
  rcases he with rfl | rfl
  · rfl
  · exact w.idempotent _

end Never

end Spec

end Khora
