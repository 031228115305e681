import Mathlib.Data.List.Induction
import Mathlib.Data.List.Nodup

/-!
# Tables with a primary key

A table is a list of rows with distinct keys.  `update` is
`UPDATE t SET ... WHERE ...` for an assignment that leaves the key alone, so a program
made of updates acts on every row by itself.

* `rows_foldl_update` — a loop of updates is one map over the rows.
* `key_mem_filter` — the keys a `SELECT` returns.
* `foldl_key_of_mem`, `foldl_key_of_not_mem` — a loop of updates by key changes a row by
  the one item with its key, if there is one.
* `mem_upsert` — the rows after an `INSERT ... ON CONFLICT DO UPDATE`.
* `filter_key` — a `SELECT` by key returns one row at most.
* `exists_foldl_upsert` — after a loop of upserts the last item with a key has set its row.
-/

/-- A table with a primary key. -/
structure Table (K R : Type*) (key : R → K) where
  rows : List R
  nodup : (rows.map key).Nodup

namespace Table

variable {K R X : Type*} {key : R → K}

@[ext] theorem ext {t t' : Table K R key} (h : t.rows = t'.rows) : t = t' := by
  cases t
  cases t'
  cases h
  rfl

theorem map_key_update (p : R → Bool) (f : R → R) (hf : ∀ r, key (f r) = key r) (rows : List R) :
    (rows.map fun r => if p r then f r else r).map key = rows.map key := by
  rw [List.map_map]
  apply List.map_congr_left
  intro r _
  by_cases h : p r = true
  · simp [h, hf]
  · simp [h]

/-- `UPDATE t SET f WHERE p`; the assignment `f` leaves the key alone. -/
def update (t : Table K R key) (p : R → Bool) (f : R → R) (hf : ∀ r, key (f r) = key r) :
    Table K R key where
  rows := t.rows.map fun r => if p r then f r else r
  nodup := by
    rw [map_key_update p f hf]
    exact t.nodup

/-- `INSERT` of one row, refused if a row has its key. -/
def insert [DecidableEq K] (t : Table K R key) (r : R) : Option (Table K R key) :=
  if h : key r ∈ t.rows.map key then none
  else some
    { rows := t.rows ++ [r]
      nodup := by
        rw [List.map_append, List.nodup_append]
        refine ⟨t.nodup, List.nodup_singleton _, ?_⟩
        intro k hk k' hk' heq
        rw [List.map_singleton, List.mem_singleton] at hk'
        rw [heq, hk'] at hk
        exact h hk }

theorem insert_of_fresh [DecidableEq K] {t : Table K R key} {r : R} (h : key r ∉ t.rows.map key) :
    ∃ t', t.insert r = some t' ∧ t'.rows = t.rows ++ [r] := by
  unfold insert
  rw [dif_neg h]
  exact ⟨_, rfl, rfl⟩

/-- The rows after an `INSERT` that is dropped when it meets its key. -/
theorem mem_getD_insert [DecidableEq K] {t : Table K R key} {r r' : R} (h : r' ∈ ((t.insert r).getD t).rows) :
    r' ∈ t.rows ∨ r' = r := by
  by_cases hfresh : key r ∈ t.rows.map key
  · rw [insert, dif_pos hfresh] at h
    exact Or.inl h
  · obtain ⟨t', ht', hrows⟩ := insert_of_fresh hfresh
    rw [ht'] at h
    simpa [hrows] using h

theorem mem_getD_insert_of_mem [DecidableEq K] {t : Table K R key} {r r' : R} (h : r' ∈ t.rows) :
    r' ∈ ((t.insert r).getD t).rows := by
  by_cases hfresh : key r ∈ t.rows.map key
  · rw [insert, dif_pos hfresh]
    exact h
  · obtain ⟨t', ht', hrows⟩ := insert_of_fresh hfresh
    rw [ht', Option.getD_some, hrows]
    exact List.mem_append_left _ h

/-- `INSERT ... ON CONFLICT (key) DO UPDATE SET f`: the row with the key of `r` is changed by
`f`; if there is none, `r` is added. -/
def upsert [DecidableEq K] (t : Table K R key) (r : R) (f : R → R) (hf : ∀ r, key (f r) = key r) :
    Table K R key :=
  match t.insert r with
  | some t' => t'
  | none => t.update (fun r' => key r' = key r) f hf

/-- The statement changes some row: its `rowcount` is not 0. -/
def affects (t : Table K R key) (p : R → Bool) : Bool := t.rows.any p

@[simp] theorem rows_update (t : Table K R key) (p : R → Bool) (f : R → R)
    (hf : ∀ r, key (f r) = key r) :
    (t.update p f hf).rows = t.rows.map fun r => if p r then f r else r := rfl

/-- **The rows after an upsert**: those with other keys as before, and one with the key. -/
theorem mem_upsert [DecidableEq K] {t : Table K R key} {r : R} {f : R → R}
    {hf : ∀ r, key (f r) = key r} {r' : R} :
    r' ∈ (t.upsert r f hf).rows ↔ (r' ∈ t.rows ∧ key r' ≠ key r) ∨
      (r' = r ∧ key r ∉ t.rows.map key) ∨ ∃ r₀ ∈ t.rows, key r₀ = key r ∧ r' = f r₀ := by
  by_cases h : key r ∈ t.rows.map key
  · have hnone : t.insert r = none := dif_pos h
    rw [upsert, hnone, rows_update, List.mem_map]
    constructor
    · rintro ⟨r₀, hr₀, rfl⟩
      by_cases hk : key r₀ = key r
      · rw [if_pos (by simpa using hk)]
        exact .inr (.inr ⟨r₀, hr₀, hk, rfl⟩)
      · rw [if_neg (by simpa using hk)]
        exact .inl ⟨hr₀, hk⟩
    · rintro (⟨hr', hk⟩ | ⟨-, hfresh⟩ | ⟨r₀, hr₀, hk, rfl⟩)
      · exact ⟨r', hr', if_neg (by simpa using hk)⟩
      · exact absurd h hfresh
      · exact ⟨r₀, hr₀, if_pos (by simpa using hk)⟩
  · obtain ⟨t', ht', hrows⟩ := insert_of_fresh h
    have hother : ∀ r₀ ∈ t.rows, key r₀ ≠ key r := by
      intro r₀ hr₀ heq
      exact h (List.mem_map.mpr ⟨r₀, hr₀, heq⟩)
    rw [upsert, ht']
    show r' ∈ t'.rows ↔ _
    rw [hrows, List.mem_append, List.mem_singleton]
    constructor
    · rintro (hr' | rfl)
      · exact .inl ⟨hr', hother r' hr'⟩
      · exact .inr (.inl ⟨rfl, h⟩)
    · rintro (⟨hr', -⟩ | ⟨rfl, -⟩ | ⟨r₀, hr₀, hk, -⟩)
      · exact .inl hr'
      · exact .inr rfl
      · exact absurd hk (hother r₀ hr₀)

/-- What holds of a row after an upsert: a row with another key is as before, and the row with
the key has what `r` has. -/
theorem exists_upsert [DecidableEq K] {t : Table K R key} {r : R} {f : R → R}
    {hf : ∀ r, key (f r) = key r} {P : R → Prop} (hP : ∀ old, key old = key r → (P (f old) ↔ P r)) :
    (∃ row ∈ (t.upsert r f hf).rows, P row) ↔ (∃ row ∈ t.rows, P row ∧ key row ≠ key r) ∨ P r := by
  simp only [mem_upsert]
  constructor
  · rintro ⟨row, ⟨hrow, hk⟩ | ⟨rfl, -⟩ | ⟨old, -, hk, rfl⟩, hp⟩
    · exact .inl ⟨row, hrow, hp, hk⟩
    · exact .inr hp
    · exact .inr ((hP old hk).mp hp)
  · rintro (⟨row, hrow, hp, hk⟩ | hp)
    · exact ⟨row, .inl ⟨hrow, hk⟩, hp⟩
    · by_cases h : key r ∈ t.rows.map key
      · obtain ⟨old, hold, hk⟩ := List.mem_map.mp h
        exact ⟨f old, .inr (.inr ⟨old, hold, hk, rfl⟩), (hP old hk).mpr hp⟩
      · exact ⟨r, .inr (.inl ⟨rfl, h⟩), hp⟩

/-- **After a loop of upserts the last item with a key has set its row**, and a row that no
item has the key of is as before. -/
theorem exists_foldl_upsert [DecidableEq K] {item : X → R} {f : R → R → R}
    {hf : ∀ r old, key (f r old) = key old} (t : Table K R key) (xs : List X) :
    ∀ P : R → Prop, (∀ r old, key old = key r → (P (f r old) ↔ P r)) →
      ((∃ row ∈ (xs.foldl (fun t x => t.upsert (item x) (f (item x)) (hf (item x))) t).rows, P row) ↔
        (∃ row ∈ t.rows, P row ∧ ∀ x ∈ xs, key row ≠ key (item x)) ∨
        ∃ before x after, xs = before ++ x :: after ∧
          (∀ y ∈ after, key (item x) ≠ key (item y)) ∧ P (item x)) := by
  induction xs using List.reverseRecOn with
  | nil =>
      intro P _
      simp
  | append_singleton xs x ih =>
      intro P hP
      have hP' : ∀ r old, key old = key r →
          ((P (f r old) ∧ key (f r old) ≠ key (item x)) ↔ (P r ∧ key r ≠ key (item x))) := by
        intro r old hk
        rw [hP r old hk, hf, hk]
      rw [List.foldl_append, List.foldl_cons, List.foldl_nil, exists_upsert (hP (item x)), ih _ hP']
      constructor
      · rintro ((⟨row, hrow, ⟨hp, hk⟩, hother⟩ | ⟨before, y, after, rfl, hlast, hp, hk⟩) | hp)
        · refine .inl ⟨row, hrow, hp, ?_⟩
          intro y hy
          rcases List.mem_append.mp hy with hy | hy
          · exact hother y hy
          · rw [List.mem_singleton.mp hy]
            exact hk
        · refine .inr ⟨before, y, after ++ [x], by simp, ?_, hp⟩
          intro z hz
          rcases List.mem_append.mp hz with hz | hz
          · exact hlast z hz
          · rw [List.mem_singleton.mp hz]
            exact hk
        · exact .inr ⟨xs, x, [], rfl, fun _ h => (by cases h), hp⟩
      · rintro (⟨row, hrow, hp, hother⟩ | ⟨before, y, after, heq, hlast, hp⟩)
        · refine .inl (.inl ⟨row, hrow, ⟨hp, ?_⟩, ?_⟩)
          · exact hother x (List.mem_append_right _ List.mem_cons_self)
          · exact fun y hy => hother y (List.mem_append_left _ hy)
        · rcases List.eq_nil_or_concat after with rfl | ⟨after', z, rfl⟩
          · obtain ⟨rfl, hsingle⟩ := List.append_inj' heq rfl
            obtain rfl := (List.cons.inj hsingle).1
            exact .inr hp
          · rw [List.concat_eq_append, ← List.cons_append, ← List.append_assoc] at heq
            obtain ⟨rfl, hsingle⟩ := List.append_inj' heq rfl
            obtain rfl := (List.cons.inj hsingle).1
            refine .inl (.inr ⟨before, y, after', rfl, ?_, hp, ?_⟩)
            · intro w hw
              exact hlast w (by rw [List.concat_eq_append]; exact List.mem_append_left _ hw)
            · exact hlast x (by rw [List.concat_eq_append]; exact List.mem_append_right _ List.mem_cons_self)

/-- A map leaves a list alone if it leaves every element alone. -/
theorem map_eq_self {f : R → R} {rows : List R} : rows.map f = rows ↔ ∀ r ∈ rows, f r = r := by
  have h : rows.map f = rows.map id ↔ ∀ r ∈ rows, f r = id r := List.map_inj_left
  rw [List.map_id] at h
  exact h

/-- **A loop of updates acts on every row by itself.** -/
theorem rows_foldl_update (p : X → R → Bool) (f : X → R → R) (hf : ∀ x r, key (f x r) = key r)
    (xs : List X) : ∀ t : Table K R key,
    (xs.foldl (fun t x => t.update (p x) (f x) (hf x)) t).rows =
      t.rows.map fun r => xs.foldl (fun r x => if p x r then f x r else r) r := by
  induction xs with
  | nil => simp
  | cons x xs ih =>
      intro t
      rw [List.foldl_cons, ih, rows_update, List.map_map]
      rfl

/-- A row's key is among those of a selection exactly if the row is selected. -/
theorem key_mem_filter {rows : List R} (hn : (rows.map key).Nodup) {p : R → Bool} {r : R}
    (hr : r ∈ rows) : key r ∈ (rows.filter p).map key ↔ p r = true := by
  constructor
  · intro h
    obtain ⟨r', hr', hkey⟩ := List.mem_map.mp h
    rw [List.mem_filter] at hr'
    rw [← List.inj_on_of_nodup_map hn hr'.1 hr hkey]
    exact hr'.2
  · intro h
    exact List.mem_map.mpr ⟨r, List.mem_filter.mpr ⟨hr, h⟩, rfl⟩

theorem nodup_filter {rows : List R} (hn : (rows.map key).Nodup) (p : R → Bool) :
    ((rows.filter p).map key).Nodup :=
  hn.sublist (List.filter_sublist.map _)

section ByKey

variable [DecidableEq K] {keyOf : X → K} {f : X → R → R}

theorem foldl_key_of_not_mem {xs : List X} :
    ∀ r, key r ∉ xs.map keyOf →
      xs.foldl (fun r x => if key r = keyOf x then f x r else r) r = r := by
  induction xs with
  | nil => exact fun r _ => rfl
  | cons x xs ih =>
      intro r hr
      rw [List.map_cons, List.mem_cons, not_or] at hr
      rw [List.foldl_cons, if_neg hr.1]
      exact ih r hr.2

theorem foldl_key_of_mem (hf : ∀ x r, key (f x r) = key r) {xs : List X}
    (hn : (xs.map keyOf).Nodup) {x : X} (hx : x ∈ xs) :
    ∀ r, key r = keyOf x →
      xs.foldl (fun r x => if key r = keyOf x then f x r else r) r = f x r := by
  induction xs with
  | nil => cases hx
  | cons y ys ih =>
      intro r hr
      rw [List.map_cons, List.nodup_cons] at hn
      rw [List.foldl_cons]
      rcases List.mem_cons.mp hx with rfl | hx
      · rw [if_pos hr]
        apply foldl_key_of_not_mem
        rw [hf, hr]
        exact hn.1
      · have hne : key r ≠ keyOf y := by
          intro heq
          apply hn.1
          rw [← heq, hr]
          exact List.mem_map.mpr ⟨x, hx, rfl⟩
        rw [if_neg hne]
        exact ih hn.2 hx r hr

end ByKey

/-- By its key, a row is found once or not at all. -/
theorem filter_key [DecidableEq K] (t : Table K R key) (k : K) :
    (t.rows.filter fun r => key r = k) = (t.rows.find? fun r => key r = k).toList := by
  obtain ⟨rows, hn⟩ := t
  show (rows.filter fun r => key r = k) = (rows.find? fun r => key r = k).toList
  induction rows with
  | nil => rfl
  | cons r rows ih =>
      rw [List.map_cons, List.nodup_cons] at hn
      by_cases hr : key r = k
      · have hrest : (rows.filter fun r => key r = k) = [] := by
          rw [List.filter_eq_nil_iff]
          intro r' hr' heq
          exact hn.1 (List.mem_map.mpr ⟨r', hr', (of_decide_eq_true heq).trans hr.symm⟩)
        simp [hr, hrest]
      · simp [hr, ih hn.2]

theorem filter_key_of_mem [DecidableEq K] (t : Table K R key) {r : R} (hr : r ∈ t.rows) :
    (t.rows.filter fun r' => key r' = key r) = [r] := by
  have hmem : r ∈ t.rows.filter fun r' => key r' = key r := List.mem_filter.mpr ⟨hr, by simp⟩
  rw [filter_key] at hmem ⊢
  revert hmem
  cases t.rows.find? fun r' => key r' = key r with
  | none => simp
  | some r' =>
      intro hmem
      rw [List.mem_singleton.mp hmem]
      rfl

end Table
