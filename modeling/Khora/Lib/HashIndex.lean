import Mathlib.Data.List.Basic
import Mathlib.Logic.Function.Basic

/-!
# Indexes built once, and scans

A hash index from keys to positions of a list, filled in one pass over the list.  Plain
insertion keeps the last position of a key, `or_insert` the first.

* `ofFirst_get` — an index of first positions answers as a scan from the front does.
* `ofLast_eq_findIdx?_iff` — an index of last positions does so for a key exactly if at most
  one position has the key.
-/

/-- A hash map from keys to positions. -/
abbrev HashIndex (K : Type*) := K → Option ℕ

namespace HashIndex

variable {K X : Type*} [DecidableEq K]

def empty : HashIndex K := fun _ => none

/-- `m.insert(k, i)` -/
def insert (m : HashIndex K) (k : K) (i : ℕ) : HashIndex K := Function.update m k (some i)

/-- `m.entry(k).or_insert(i)` -/
def orInsert (m : HashIndex K) (k : K) (i : ℕ) : HashIndex K :=
  if (m k).isSome then m else m.insert k i

/-- The pairs `(key, position)`, collected. -/
def ofLast (key : X → K) (xs : List X) : HashIndex K :=
  xs.zipIdx.foldl (fun m p => m.insert (key p.1) p.2) empty

/-- The position of each element under all its keys, where the first position stays. -/
def ofFirst (keys : X → List K) (xs : List X) : HashIndex K :=
  xs.zipIdx.foldl (fun m p => (keys p.1).foldl (fun m k => m.orInsert k p.2) m) empty

/-! ## First positions -/

theorem orInsert_get (m : HashIndex K) (k k' : K) (i : ℕ) :
    m.orInsert k' i k = if k' = k then (m k).or (some i) else m k := by
  unfold orInsert insert
  by_cases h : k' = k
  · subst h
    cases hm : m k'
    · simp
    · simp [hm]
  · rw [if_neg h]
    split
    · rfl
    · rw [Function.update_of_ne (Ne.symm h)]

theorem foldl_orInsert (ks : List K) (i : ℕ) (k : K) : ∀ m : HashIndex K,
    ks.foldl (fun m k => m.orInsert k i) m k = if k ∈ ks then (m k).or (some i) else m k := by
  induction ks with
  | nil => simp
  | cons k' ks ih =>
      intro m
      rw [List.foldl_cons, ih, orInsert_get]
      by_cases h : k' = k
      · subst h
        simp
      · simp [h, Ne.symm h]

theorem foldl_ofFirst (keys : X → List K) (k : K) (xs : List X) : ∀ (n : ℕ) (m : HashIndex K),
    (xs.zipIdx n).foldl (fun m p => (keys p.1).foldl (fun m k => m.orInsert k p.2) m) m k =
      (m k).or ((xs.findIdx? fun x => decide (k ∈ keys x)).map (n + ·)) := by
  induction xs with
  | nil => simp
  | cons x xs ih =>
      intro n m
      rw [List.zipIdx_cons, List.foldl_cons, ih, foldl_orInsert, List.findIdx?_cons]
      by_cases h : k ∈ keys x
      · simp [h]
      · have hshift : (fun i => n + i) ∘ (fun i => i + 1) = fun i => n + 1 + i := by
          funext i
          show n + (i + 1) = n + 1 + i
          omega
        rw [if_neg h, decide_eq_false h, if_neg Bool.false_ne_true, Option.map_map, hshift]

/-- **An index of first positions answers as a scan does.** -/
theorem ofFirst_get (keys : X → List K) (xs : List X) (k : K) :
    ofFirst keys xs k = xs.findIdx? fun x => decide (k ∈ keys x) := by
  rw [ofFirst, foldl_ofFirst]
  simp [empty]

/-! ## Last positions -/

/-- The last position of the key, or what was there before. -/
theorem foldl_ofLast (key : X → K) (k : K) (xs : List X) : ∀ (n : ℕ) (m : HashIndex K),
    ((∀ x ∈ xs, key x ≠ k) ∧
      (xs.zipIdx n).foldl (fun m p => m.insert (key p.1) p.2) m k = m k) ∨
    ∃ (i : ℕ) (x : X), xs[i]? = some x ∧ key x = k ∧
      (∀ j, i < j → ∀ y, xs[j]? = some y → key y ≠ k) ∧
      (xs.zipIdx n).foldl (fun m p => m.insert (key p.1) p.2) m k = some (n + i) := by
  induction xs with
  | nil => exact fun n m => .inl ⟨fun _ h => (by cases h), rfl⟩
  | cons x xs ih =>
      intro n m
      rw [List.zipIdx_cons, List.foldl_cons]
      rcases ih (n + 1) (m.insert (key x) n) with ⟨hno, heq⟩ | ⟨i, y, hy, hkey, hlast, heq⟩
      · rw [heq]
        by_cases h : key x = k
        · refine .inr ⟨0, x, rfl, h, ?_, ?_⟩
          · intro j hj y hy
            obtain ⟨j, rfl⟩ := Nat.exists_eq_succ_of_ne_zero (by omega : j ≠ 0)
            rw [List.getElem?_cons_succ] at hy
            exact hno y (List.mem_of_getElem? hy)
          · rw [insert, h, Function.update_self, Nat.add_zero]
        · refine .inl ⟨?_, ?_⟩
          · intro y hy
            rcases List.mem_cons.mp hy with rfl | hy
            · exact h
            · exact hno y hy
          · rw [insert, Function.update_of_ne (Ne.symm h)]
      · refine .inr ⟨i + 1, y, by rw [List.getElem?_cons_succ]; exact hy, hkey, ?_, ?_⟩
        · intro j hj z hz
          obtain ⟨j, rfl⟩ := Nat.exists_eq_succ_of_ne_zero (by omega : j ≠ 0)
          rw [List.getElem?_cons_succ] at hz
          exact hlast j (by omega) z hz
        · rw [heq]
          congr 1
          omega

theorem ofLast_eq_none_iff (key : X → K) (xs : List X) (k : K) :
    ofLast key xs k = none ↔ ∀ x ∈ xs, key x ≠ k := by
  rw [ofLast]
  rcases foldl_ofLast key k xs 0 empty with ⟨hno, heq⟩ | ⟨i, x, hx, hkey, -, heq⟩
  · exact iff_of_true heq hno
  · refine iff_of_false ?_ fun h => h x (List.mem_of_getElem? hx) hkey
    rw [heq]
    exact Option.some_ne_none _

/-- **An index of last positions answers as a scan does exactly for the keys that have at
most one position.** -/
theorem ofLast_eq_findIdx?_iff (key : X → K) (xs : List X) (k : K) :
    ofLast key xs k = (xs.findIdx? fun x => decide (key x = k)) ↔
      ∀ (i j : ℕ) (x y : X), xs[i]? = some x → xs[j]? = some y → key x = k → key y = k → i = j := by
  rw [ofLast]
  rcases foldl_ofLast key k xs 0 empty with ⟨hno, heq⟩ | ⟨i, x, hx, hkey, hlast, heq⟩
  · rw [heq]
    refine iff_of_true ?_ fun i j x y hx _ hkx _ => absurd hkx (hno x (List.mem_of_getElem? hx))
    symm
    rw [show empty k = none from rfl, List.findIdx?_eq_none_iff]
    intro x hx
    exact decide_eq_false (hno x hx)
  · rw [heq, Nat.zero_add]
    have hlen : ∀ {i : ℕ} {x : X}, xs[i]? = some x → ∃ h : i < xs.length, xs[i] = x :=
      fun h => List.getElem?_eq_some_iff.mp h
    constructor
    · intro hfind
      obtain ⟨hi, -, hfirst⟩ := List.findIdx?_eq_some_iff_getElem.mp hfind.symm
      -- every position of the key is at or after the first and at or before the last
      have honly : ∀ j y, xs[j]? = some y → key y = k → j = i := by
        intro j y hy hky
        rcases Nat.lt_trichotomy j i with h | h | h
        · obtain ⟨hj, hget⟩ := hlen hy
          have := hfirst j h
          rw [hget, hky] at this
          simp at this
        · exact h
        · exact absurd hky (hlast j h y hy)
      intro i' j' x' y' hx' hy' hkx hky
      rw [honly i' x' hx' hkx, honly j' y' hy' hky]
    · intro huniq
      obtain ⟨hi, hget⟩ := hlen hx
      symm
      rw [List.findIdx?_eq_some_iff_getElem]
      refine ⟨hi, by rw [hget]; exact decide_eq_true hkey, ?_⟩
      intro j hj
      have hne : key xs[j] ≠ k := by
        intro h
        have := huniq j i xs[j] x (List.getElem?_eq_getElem _) hx h hkey
        omega
      simp [hne]

end HashIndex
