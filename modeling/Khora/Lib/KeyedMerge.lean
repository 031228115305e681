import Mathlib.Data.List.Nodup

/-!
# Rows merged by key

A store of rows with a key, into which items are merged one after another: a row with the
key of the item is changed, and where there is none a row is made.

* `get_mergeAll` — what stands under a key after the items of that key.
* `mem_iff_get` — with distinct keys a row is the one that stands under its key.
* `map_get_mergeAll`, `get_mergeAll_of_mem` — parts that no item changes, and what items give.
-/

namespace KeyedMerge

variable {K R X : Type*} [DecidableEq K] (key : R → K)

/-- The row under a key. -/
def get (rows : List R) (k : K) : Option R := rows.find? fun r => decide (key r = k)

variable (keyOf : X → K) (onMatch : X → R → R) (onCreate : X → R)

/-- `MERGE` of one item. -/
def mergeOne (rows : List R) (x : X) : List R :=
  if rows.any fun r => decide (key r = keyOf x) then
    rows.map fun r => if key r = keyOf x then onMatch x r else r
  else rows ++ [onCreate x]

def mergeAll (rows : List R) (xs : List X) : List R :=
  xs.foldl (mergeOne key keyOf onMatch onCreate) rows

/-- One item against what stands under its key. -/
def absorb (o : Option R) (x : X) : Option R := some (o.elim (onCreate x) (onMatch x))

section Get

variable {key}

theorem get_eq_none_iff {rows : List R} {k : K} : get key rows k = none ↔ ∀ r ∈ rows, key r ≠ k := by
  simp [get]

theorem key_of_get {rows : List R} {k : K} {r : R} (h : get key rows k = some r) : key r = k := by
  have hfound := List.find?_some h
  exact of_decide_eq_true hfound

theorem mem_of_get {rows : List R} {k : K} {r : R} (h : get key rows k = some r) : r ∈ rows :=
  List.mem_of_find?_eq_some h

theorem mem_iff_get {rows : List R} (hn : (rows.map key).Nodup) {r : R} :
    r ∈ rows ↔ get key rows (key r) = some r := by
  refine ⟨fun hr => ?_, mem_of_get⟩
  cases hget : get key rows (key r) with
  | none => exact absurd rfl (get_eq_none_iff.mp hget r hr)
  | some r' => rw [List.inj_on_of_nodup_map hn (mem_of_get hget) hr (key_of_get hget)]

/-- A change of rows that leaves the key alone. -/
theorem get_map {f : R → R} (hf : ∀ r, key (f r) = key r) (rows : List R) (k : K) :
    get key (rows.map f) k = (get key rows k).map f := by
  unfold get
  rw [List.find?_map]
  congr 2
  funext r
  simp [hf]

omit [DecidableEq K] in
theorem map_key_map {f : R → R} (hf : ∀ r, key (f r) = key r) (rows : List R) :
    (rows.map f).map key = rows.map key := by
  rw [List.map_map]
  apply List.map_congr_left
  intro r _
  exact hf r

/-- A selection of rows with distinct keys. -/
theorem get_filter {rows : List R} (hn : (rows.map key).Nodup) (p : R → Bool) (k : K) :
    get key (rows.filter p) k = (get key rows k).filter p := by
  apply Option.ext
  intro r
  rw [Option.filter_eq_some_iff]
  constructor
  · intro h
    have hmem := List.mem_filter.mp (mem_of_get h)
    rw [← key_of_get h]
    exact ⟨(mem_iff_get hn).mp hmem.1, hmem.2⟩
  · rintro ⟨h, hp⟩
    rw [← key_of_get h]
    exact (mem_iff_get (hn.sublist (List.filter_sublist.map _))).mp (List.mem_filter.mpr ⟨mem_of_get h, hp⟩)

theorem get_append_singleton (rows : List R) (r : R) (k : K) :
    get key (rows ++ [r]) k = (get key rows k).or (if key r = k then some r else none) := by
  unfold get
  rw [List.find?_append, List.find?_singleton]
  by_cases h : key r = k
  · simp [h]
  · simp [h]

end Get

section Merge

variable {key keyOf onMatch onCreate}
variable (hmatch : ∀ x r, key (onMatch x r) = key r) (hcreate : ∀ x, key (onCreate x) = keyOf x)

include hmatch hcreate

theorem get_mergeOne (rows : List R) (x : X) (k : K) :
    get key (mergeOne key keyOf onMatch onCreate rows x) k =
      if keyOf x = k then absorb onMatch onCreate (get key rows k) x else get key rows k := by
  unfold mergeOne
  split
  case isTrue h =>
    have hkey : ∀ r, key (if key r = keyOf x then onMatch x r else r) = key r := by
      intro r
      split
      · exact hmatch x r
      · rfl
    rw [get_map hkey]
    cases hget : get key rows k with
    | none =>
        rw [if_neg]
        · rfl
        · rintro rfl
          obtain ⟨r, hr, heq⟩ := List.any_eq_true.mp h
          exact get_eq_none_iff.mp hget r hr (of_decide_eq_true heq)
    | some r =>
        have hr := key_of_get hget
        by_cases hk : keyOf x = k
        · simp [hk, hr, absorb]
        · simp [hk, hr, Ne.symm hk]
  case isFalse h =>
    have hnone : get key rows (keyOf x) = none := by
      rw [get_eq_none_iff]
      intro r hr heq
      exact h (List.any_eq_true.mpr ⟨r, hr, decide_eq_true heq⟩)
    rw [get_append_singleton, hcreate]
    by_cases hk : keyOf x = k
    · rw [if_pos hk, if_pos hk, ← hk, hnone]
      rfl
    · rw [if_neg hk, if_neg hk, Option.or_none]

/-- **The items of a key, one after another.** -/
theorem get_mergeAll (xs : List X) (rows : List R) (k : K) :
    get key (mergeAll key keyOf onMatch onCreate rows xs) k =
      (xs.filter fun x => decide (keyOf x = k)).foldl (absorb onMatch onCreate) (get key rows k) := by
  induction xs generalizing rows with
  | nil => rfl
  | cons x xs ih =>
      have hcons : mergeAll key keyOf onMatch onCreate rows (x :: xs) =
          mergeAll key keyOf onMatch onCreate (mergeOne key keyOf onMatch onCreate rows x) xs := rfl
      rw [hcons, ih, get_mergeOne hmatch hcreate, List.filter_cons]
      by_cases hk : keyOf x = k
      · rw [if_pos hk, if_pos (decide_eq_true hk), List.foldl_cons]
      · rw [if_neg hk, if_neg (by simp [hk])]

/-- A part of a row that no item changes: that of the row, or of the first item of the key. -/
theorem map_get_mergeAll {V : Type*} {part : R → V} (hpart : ∀ x r, part (onMatch x r) = part r)
    (xs : List X) (rows : List R) (k : K) :
    (get key (mergeAll key keyOf onMatch onCreate rows xs) k).map part =
      ((get key rows k).map part).or ((xs.find? fun x => decide (keyOf x = k)).map fun x => part (onCreate x)) := by
  have hsome : ∀ (ys : List X) (r : R),
      (ys.foldl (absorb onMatch onCreate) (some r)).map part = some (part r) := by
    intro ys
    induction ys with
    | nil => exact fun r => rfl
    | cons y ys ih => exact fun r => (ih (onMatch y r)).trans (congrArg some (hpart y r))
  rw [get_mergeAll hmatch hcreate, ← List.head?_filter]
  cases get key rows k with
  | some r => exact hsome _ r
  | none =>
      cases xs.filter fun x => decide (keyOf x = k) with
      | nil => rfl
      | cons y ys => exact hsome ys (onCreate y)

theorem get_mergeAll_of_notMem {xs : List X} {k : K} (h : ∀ x ∈ xs, keyOf x ≠ k) (rows : List R) :
    get key (mergeAll key keyOf onMatch onCreate rows xs) k = get key rows k := by
  have hnone : (xs.filter fun x => decide (keyOf x = k)) = [] := by
    rw [List.filter_eq_nil_iff]
    intro x hx
    simp [h x hx]
  rw [get_mergeAll hmatch hcreate, hnone]
  rfl

/-- What the items of a key give a row. -/
theorem get_mergeAll_of_mem {P : R → Prop} {xs : List X} {rows : List R} {k : K}
    (hk : ∃ x ∈ xs, keyOf x = k) (hon : ∀ x ∈ xs, ∀ r, P (onMatch x r)) (hnew : ∀ x ∈ xs, P (onCreate x)) :
    ∃ r, get key (mergeAll key keyOf onMatch onCreate rows xs) k = some r ∧ P r := by
  have hfold : ∀ ys : List X, (∀ y ∈ ys, y ∈ xs) → ∀ r, P r →
      ∃ r', ys.foldl (absorb onMatch onCreate) (some r) = some r' ∧ P r' := by
    intro ys
    induction ys with
    | nil => exact fun _ r h => ⟨r, rfl, h⟩
    | cons y ys ih =>
        intro hys r _
        exact ih (fun z hz => hys z (List.mem_cons_of_mem _ hz)) _ (hon y (hys y List.mem_cons_self) r)
  rw [get_mergeAll hmatch hcreate]
  obtain ⟨x, hx, rfl⟩ := hk
  have hmem : x ∈ xs.filter fun y => decide (keyOf y = keyOf x) := List.mem_filter.mpr ⟨hx, decide_eq_true rfl⟩
  cases hfilter : xs.filter fun y => decide (keyOf y = keyOf x) with
  | nil =>
      rw [hfilter] at hmem
      cases hmem
  | cons y ys =>
      have hsub : ∀ z ∈ y :: ys, z ∈ xs := fun z hz => List.mem_of_mem_filter (hfilter ▸ hz)
      have hy := hsub y List.mem_cons_self
      refine hfold ys (fun z hz => hsub z (List.mem_cons_of_mem _ hz)) _ ?_
      cases get key rows (keyOf x) with
      | none => exact hnew y hy
      | some r => exact hon y hy r

omit hmatch hcreate in
/-- What every row has and every item keeps or gives. -/
theorem forall_mem_mergeAll {P : R → Prop} {xs : List X} (hon : ∀ x ∈ xs, ∀ r, P r → P (onMatch x r))
    (hnew : ∀ x ∈ xs, P (onCreate x)) {rows : List R} (h : ∀ r ∈ rows, P r) :
    ∀ r ∈ mergeAll key keyOf onMatch onCreate rows xs, P r := by
  induction xs generalizing rows with
  | nil => exact h
  | cons x xs ih =>
      rw [List.forall_mem_cons] at hon hnew
      apply ih hon.2 hnew.2
      unfold mergeOne
      split
      · intro r hr
        obtain ⟨r₀, hr₀, rfl⟩ := List.mem_map.mp hr
        show P (if _ then _ else _)
        split
        · exact hon.1 r₀ (h r₀ hr₀)
        · exact h r₀ hr₀
      · intro r hr
        rcases List.mem_append.mp hr with hr | hr
        · exact h r hr
        · rw [List.mem_singleton.mp hr]
          exact hnew.1

theorem nodup_mergeOne {rows : List R} (hn : (rows.map key).Nodup) (x : X) :
    ((mergeOne key keyOf onMatch onCreate rows x).map key).Nodup := by
  unfold mergeOne
  split
  case isTrue h =>
    rw [map_key_map]
    · exact hn
    · intro r
      split
      · exact hmatch x r
      · rfl
  case isFalse h =>
    rw [List.map_append, List.nodup_append]
    refine ⟨hn, List.nodup_singleton _, ?_⟩
    intro k hk k' hk' heq
    obtain ⟨r, hr, rfl⟩ := List.mem_map.mp hk
    rw [List.map_singleton, List.mem_singleton, hcreate] at hk'
    exact h (List.any_eq_true.mpr ⟨r, hr, decide_eq_true (heq.trans hk')⟩)

theorem nodup_mergeAll {rows : List R} (hn : (rows.map key).Nodup) (xs : List X) :
    ((mergeAll key keyOf onMatch onCreate rows xs).map key).Nodup := by
  induction xs generalizing rows with
  | nil => exact hn
  | cons x xs ih => exact ih (nodup_mergeOne hmatch hcreate hn x)

end Merge

end KeyedMerge
