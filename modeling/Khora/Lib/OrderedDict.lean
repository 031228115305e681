import Mathlib.Data.List.Induction
import Mathlib.Data.List.Nodup
import Mathlib.Data.List.Lookmap

/-!
# Insertion-ordered dictionaries

Python's `OrderedDict`: a list of pairs with distinct keys, oldest first.  Setting a
key that is there keeps its place; `moveToEnd` makes it the newest; `popTo` is the
loop `while len(d) > cap: d.popitem(last=False)`.

* `get?_set`, `get?_moveToEnd`, `get?_erase`, `get?_eraseWhere`, `get?_mapVals` — what each operation
  does to a lookup.
* `mem_keys_update`, `items_update` — the keys and the items of a dictionary and those it is updated with.
* `get?_popTo` — eviction loses exactly the keys of `overflow`.
-/

/-- A dictionary that remembers insertion order. -/
structure OrderedDict (K V : Type*) where
  items : List (K × V)
  nodup : (items.map Prod.fst).Nodup
  deriving DecidableEq, Repr

namespace OrderedDict

variable {K V W : Type*} [DecidableEq K]

/-- `len(d)` -/
def size (d : OrderedDict K V) : ℕ := d.items.length

/-- The keys, oldest first. -/
def keys (d : OrderedDict K V) : List K := d.items.map Prod.fst

/-- `d.get(k)` -/
def get? (d : OrderedDict K V) (k : K) : Option V :=
  (d.items.find? fun e => e.1 == k).map Prod.snd

def empty : OrderedDict K V := ⟨[], List.nodup_nil⟩

/-- `del d[k]` -/
def erase (d : OrderedDict K V) (k : K) : OrderedDict K V :=
  ⟨d.items.filter fun e => e.1 != k, d.nodup.sublist (List.filter_sublist.map _)⟩

/-- The pairs whose keys are not in the set. -/
def eraseWhere (d : OrderedDict K V) (p : K → Bool) : OrderedDict K V :=
  ⟨d.items.filter fun e => !p e.1, d.nodup.sublist (List.filter_sublist.map _)⟩

theorem map_fst_replace (items : List (K × V)) (k : K) (v : V) :
    (items.map fun e => if e.1 = k then (k, v) else e).map Prod.fst = items.map Prod.fst := by
  rw [List.map_map]
  apply List.map_congr_left
  intro e _
  by_cases h : e.1 = k
  · simp [h]
  · simp [h]

omit [DecidableEq K] in
theorem nodup_append_new {items : List (K × V)} {k : K} (hn : (items.map Prod.fst).Nodup)
    (hk : k ∉ items.map Prod.fst) (v : V) : ((items ++ [(k, v)]).map Prod.fst).Nodup := by
  rw [List.map_append, List.nodup_append]
  refine ⟨hn, by simp, ?_⟩
  intro a ha b hb hab
  rw [List.map_singleton, List.mem_singleton] at hb
  rw [hab, hb] at ha
  exact hk ha

theorem not_mem_keys_filter (items : List (K × V)) (k : K) :
    k ∉ (items.filter fun e => e.1 != k).map Prod.fst := by
  simp

/-- `d[k] = v` -/
def set (d : OrderedDict K V) (k : K) (v : V) : OrderedDict K V :=
  if h : k ∈ d.keys then
    ⟨d.items.map fun e => if e.1 = k then (k, v) else e, by
      rw [map_fst_replace]
      exact d.nodup⟩
  else
    ⟨d.items ++ [(k, v)], nodup_append_new d.nodup h v⟩

/-- `d.update(items)` -/
def update (d : OrderedDict K V) (items : List (K × V)) : OrderedDict K V :=
  items.foldl (fun acc e => acc.set e.1 e.2) d

/-- `d.move_to_end(k)`; the callers test for the key first. -/
def moveToEnd (d : OrderedDict K V) (k : K) : OrderedDict K V :=
  match d.get? k with
  | none => d
  | some v =>
      ⟨(d.erase k).items ++ [(k, v)],
        nodup_append_new (d.erase k).nodup (not_mem_keys_filter d.items k) v⟩

/-- `d[k] = v; d.move_to_end(k)`: the key is now the newest. -/
def setLast (d : OrderedDict K V) (k : K) (v : V) : OrderedDict K V := (d.set k v).moveToEnd k

/-- The value of every key, changed by `f`. -/
def mapVals (d : OrderedDict K V) (f : V → W) : OrderedDict K W :=
  ⟨d.items.map fun e => (e.1, f e.2), by
    rw [List.map_map]
    exact d.nodup⟩

/-- `while len(d) > cap: d.popitem(last=False)` -/
def popTo (d : OrderedDict K V) (cap : ℕ) : OrderedDict K V :=
  ⟨d.items.drop (d.size - cap), d.nodup.sublist ((List.drop_sublist _ _).map _)⟩

/-- The keys `popTo` loses: the oldest ones beyond `cap`. -/
def overflow (d : OrderedDict K V) (cap : ℕ) : List K := (d.items.take (d.size - cap)).map Prod.fst

/-! ## Lookup -/

theorem get?_eq_some_iff {d : OrderedDict K V} {k : K} {v : V} :
    d.get? k = some v ↔ (k, v) ∈ d.items := by
  constructor
  · intro h
    obtain ⟨e, he, rfl⟩ := Option.map_eq_some_iff.mp h
    have hk : e.1 = k := by simpa using List.find?_some he
    rw [← hk]
    exact List.mem_of_find?_eq_some he
  · intro h
    obtain ⟨e, he⟩ : ∃ e, d.items.find? (fun e => e.1 == k) = some e := by
      rw [← Option.isSome_iff_exists, List.find?_isSome]
      exact ⟨(k, v), h, by simp⟩
    have hk : e.1 = k := by simpa using List.find?_some he
    have heq : e = (k, v) :=
      List.inj_on_of_nodup_map d.nodup (List.mem_of_find?_eq_some he) h hk
    rw [get?, he, heq]
    rfl

theorem get?_eq_none_iff {d : OrderedDict K V} {k : K} : d.get? k = none ↔ k ∉ d.keys := by
  rw [get?, Option.map_eq_none_iff, List.find?_eq_none, keys, List.mem_map]
  constructor
  · rintro h ⟨e, he, rfl⟩
    exact h e he (by simp)
  · intro h e he hek
    exact h ⟨e, he, by simpa using hek⟩

theorem exists_get?_of_mem {d : OrderedDict K V} {k : K} (h : k ∈ d.keys) :
    ∃ v, d.get? k = some v := by
  obtain ⟨e, he, rfl⟩ := List.mem_map.mp h
  exact ⟨e.2, get?_eq_some_iff.mpr he⟩

/-- Two dictionaries with the same pairs answer alike. -/
theorem get?_congr {d d' : OrderedDict K V} {k : K}
    (h : ∀ v, (k, v) ∈ d.items ↔ (k, v) ∈ d'.items) : d.get? k = d'.get? k := by
  apply Option.ext
  intro v
  rw [get?_eq_some_iff, get?_eq_some_iff]
  exact h v

@[simp] theorem get?_empty (k : K) : (empty : OrderedDict K V).get? k = none := rfl

theorem get?_erase (d : OrderedDict K V) (k k' : K) :
    (d.erase k).get? k' = if k' = k then none else d.get? k' := by
  by_cases h : k' = k
  · rw [if_pos h, get?_eq_none_iff, h]
    exact not_mem_keys_filter d.items k
  · rw [if_neg h]
    apply get?_congr
    intro v
    simp [erase, h]

theorem get?_eraseWhere (d : OrderedDict K V) (p : K → Bool) (k : K) :
    (d.eraseWhere p).get? k = if p k then none else d.get? k := by
  by_cases h : p k = true
  · rw [if_pos h, get?_eq_none_iff]
    simp [keys, eraseWhere, h]
  · rw [if_neg h]
    apply get?_congr
    intro v
    simp [eraseWhere, h]

theorem get?_set (d : OrderedDict K V) (k k' : K) (v : V) :
    (d.set k v).get? k' = if k' = k then some v else d.get? k' := by
  by_cases hk : k ∈ d.keys
  · have hset : (d.set k v).items = d.items.map fun e => if e.1 = k then (k, v) else e := by
      rw [set, dif_pos hk]
    by_cases h : k' = k
    · rw [if_pos h, get?_eq_some_iff, hset, h]
      obtain ⟨e, he, rfl⟩ := List.mem_map.mp hk
      exact List.mem_map.mpr ⟨e, he, by simp⟩
    · rw [if_neg h]
      apply get?_congr
      intro w
      rw [hset, List.mem_map]
      constructor
      · rintro ⟨e, he, hew⟩
        by_cases hek : e.1 = k
        · rw [if_pos hek] at hew
          exact absurd (congrArg Prod.fst hew).symm h
        · rw [if_neg hek] at hew
          rwa [← hew]
      · intro hw
        exact ⟨(k', w), hw, by simp [h]⟩
  · have hset : (d.set k v).items = d.items ++ [(k, v)] := by
      rw [set, dif_neg hk]
    by_cases h : k' = k
    · rw [if_pos h, get?_eq_some_iff, hset, h]
      simp
    · rw [if_neg h]
      apply get?_congr
      intro w
      simp [hset, h]

@[simp] theorem get?_moveToEnd (d : OrderedDict K V) (k k' : K) :
    (d.moveToEnd k).get? k' = d.get? k' := by
  rw [moveToEnd]
  split
  · rfl
  · rename_i v hv
    apply get?_congr
    intro w
    rw [List.mem_append, List.mem_singleton]
    by_cases h : k' = k
    · subst h
      rw [get?_eq_some_iff] at hv
      constructor
      · rintro (hw | hw)
        · simp [erase] at hw
        · rw [hw]
          exact hv
      · intro hw
        have heq := List.inj_on_of_nodup_map d.nodup hw hv rfl
        exact Or.inr heq
    · simp [erase, h]

theorem size_set_of_none {d : OrderedDict K V} {k : K} (h : d.get? k = none) (v : V) :
    (d.set k v).size = d.size + 1 := by
  unfold size set
  rw [dif_neg (get?_eq_none_iff.mp h), List.length_append]
  rfl

theorem get?_mapVals (d : OrderedDict K V) (f : V → W) (k : K) :
    (d.mapVals f).get? k = (d.get? k).map f := by
  simp only [get?, mapVals, List.find?_map, Option.map_map]
  rfl

omit [DecidableEq K] in
theorem ext_items {d d' : OrderedDict K V} (h : d.items = d'.items) : d = d' := by
  cases d
  cases d'
  cases h
  rfl

theorem mapVals_set (d : OrderedDict K V) (k : K) (v : V) (f : V → W) :
    (d.set k v).mapVals f = (d.mapVals f).set k (f v) := by
  have hkeys : (d.mapVals f).keys = d.keys := by simp [keys, mapVals]
  apply ext_items
  unfold set
  by_cases hk : k ∈ d.keys
  · rw [dif_pos hk, dif_pos (hkeys ▸ hk)]
    show List.map _ (List.map _ _) = List.map _ (List.map _ _)
    rw [List.map_map, List.map_map]
    apply List.map_congr_left
    intro e _
    by_cases he : e.1 = k
    · simp [he]
    · simp [he]
  · rw [dif_neg hk, dif_neg (hkeys ▸ hk)]
    exact List.map_append ..

omit [DecidableEq K] in
@[simp] theorem size_mapVals (d : OrderedDict K V) (f : V → W) : (d.mapVals f).size = d.size := by
  simp [size, mapVals]

theorem get?_setLast (d : OrderedDict K V) (k k' : K) (v : V) :
    (d.setLast k v).get? k' = if k' = k then some v else d.get? k' := by
  rw [setLast, get?_moveToEnd, get?_set]

theorem items_setLast (d : OrderedDict K V) (k : K) (v : V) :
    (d.setLast k v).items = (d.erase k).items ++ [(k, v)] := by
  have hget : (d.set k v).get? k = some v := by rw [get?_set, if_pos rfl]
  have herase : ((d.set k v).erase k).items = (d.erase k).items := by
    by_cases hk : k ∈ d.keys
    · simp only [set, dif_pos hk, erase, List.filter_map]
      conv_rhs => rw [← List.map_id (List.filter _ _)]
      have hfilter : d.items.filter ((fun e => e.1 != k) ∘ fun e => if e.1 = k then (k, v) else e) =
          d.items.filter fun e => e.1 != k := by
        apply List.filter_congr
        intro e _
        by_cases h : e.1 = k <;> simp [h]
      rw [hfilter]
      apply List.map_congr_left
      intro e he
      have hne : e.1 ≠ k := by simpa using (List.mem_filter.mp he).2
      rw [if_neg hne]
      rfl
    · simp [set, dif_neg hk, erase]
  rw [setLast, moveToEnd]
  split
  · rename_i hnone
    rw [hget] at hnone
    cases hnone
  · rename_i w hw
    rw [hget] at hw
    cases hw
    exact congrArg (· ++ [(k, v)]) herase

/-! ## Updates -/

theorem keys_set (d : OrderedDict K V) (k : K) (v : V) :
    (d.set k v).keys = if k ∈ d.keys then d.keys else d.keys ++ [k] := by
  unfold set
  split
  · exact map_fst_replace d.items k v
  · exact List.map_append ..

theorem mem_keys_update {d : OrderedDict K V} {items : List (K × V)} {k : K} (h : k ∈ (d.update items).keys) :
    k ∈ d.keys ∨ k ∈ items.map Prod.fst := by
  induction items generalizing d with
  | nil => exact Or.inl h
  | cons e items ih =>
    rcases ih h with h | h
    · rw [keys_set] at h
      split at h
      · exact Or.inl h
      · rcases List.mem_append.mp h with h | h
        · exact Or.inl h
        · exact Or.inr (List.mem_singleton.mp h ▸ List.mem_cons_self)
    · exact Or.inr (List.mem_cons_of_mem _ h)

/-- New keys come last, in order. -/
theorem items_update {d : OrderedDict K V} {items : List (K × V)} (h : (d.keys ++ items.map Prod.fst).Nodup) :
    (d.update items).items = d.items ++ items := by
  induction items generalizing d with
  | nil => exact (List.append_nil _).symm
  | cons e items ih =>
    have hk : e.1 ∉ d.keys := fun hk => List.disjoint_of_nodup_append h hk List.mem_cons_self
    have hset : (d.set e.1 e.2).items = d.items ++ [e] := by rw [set, dif_neg hk]
    have hkeys : (d.set e.1 e.2).keys = d.keys ++ [e.1] := by rw [keys_set, if_neg hk]
    show ((d.set e.1 e.2).update items).items = _
    rw [ih, hset, List.append_assoc, List.singleton_append]
    rwa [hkeys, List.append_assoc, List.singleton_append]

/-! ## Eviction -/

omit [DecidableEq K] in
theorem size_popTo_le (d : OrderedDict K V) (cap : ℕ) : (d.popTo cap).size ≤ cap := by
  simp only [size, popTo, List.length_drop]
  omega

theorem get?_popTo (d : OrderedDict K V) (cap : ℕ) (k : K) :
    (d.popTo cap).get? k = if k ∈ d.overflow cap then none else d.get? k := by
  have hsplit := List.take_append_drop (d.size - cap) d.items
  have hn := d.nodup
  rw [← hsplit, List.map_append, List.nodup_append] at hn
  by_cases h : k ∈ d.overflow cap
  · rw [if_pos h, get?_eq_none_iff]
    exact fun hk => hn.2.2 k h k hk rfl
  · rw [if_neg h]
    apply get?_congr
    intro v
    conv_rhs => rw [← hsplit]
    rw [List.mem_append]
    constructor
    · exact fun hv => Or.inr hv
    · rintro (hv | hv)
      · exact absurd (List.mem_map.mpr ⟨(k, v), hv, rfl⟩) h
      · exact hv

omit [DecidableEq K] in
theorem overflow_subset (d : OrderedDict K V) (cap : ℕ) : d.overflow cap ⊆ d.keys :=
  ((List.take_sublist _ _).map _).subset

/-- What is left after eviction was there before. -/
theorem get?_of_popTo {d : OrderedDict K V} {cap : ℕ} {k : K} {v : V}
    (h : (d.popTo cap).get? k = some v) : d.get? k = some v := by
  rw [get?_popTo] at h
  split at h
  · cases h
  · exact h

theorem size_erase_le (d : OrderedDict K V) (k : K) : (d.erase k).size ≤ d.size :=
  List.length_filter_le _ _

theorem size_erase_lt {d : OrderedDict K V} {k : K} (h : k ∈ d.keys) :
    (d.erase k).size < d.size := by
  obtain ⟨e, he, rfl⟩ := List.mem_map.mp h
  exact List.length_filter_lt_length_iff_exists.mpr ⟨e, he, by simp⟩

theorem erase_of_not_mem {d : OrderedDict K V} {k : K} (h : k ∉ d.keys) :
    (d.erase k).items = d.items := by
  apply List.filter_eq_self.mpr
  intro e he
  have hne : e.1 ≠ k := fun hek => h (List.mem_map.mpr ⟨e, he, hek⟩)
  simpa using hne

theorem size_moveToEnd_le (d : OrderedDict K V) (k : K) : (d.moveToEnd k).size ≤ d.size := by
  rw [moveToEnd]
  split
  · exact Nat.le_refl _
  · rename_i v hv
    have hlt := size_erase_lt (List.mem_map.mpr ⟨(k, v), get?_eq_some_iff.mp hv, rfl⟩)
    rw [size, List.length_append]
    exact hlt

theorem size_setLast (d : OrderedDict K V) (k : K) (v : V) :
    (d.setLast k v).size = (d.erase k).size + 1 := by
  rw [size, items_setLast, List.length_append]
  rfl

/-- A key that is there again evicts nothing from a dictionary within its capacity. -/
theorem overflow_setLast_of_mem {d : OrderedDict K V} {k : K} {cap : ℕ} (hcap : d.size ≤ cap)
    (h : k ∈ d.keys) (v : V) : (d.setLast k v).overflow cap = [] := by
  have hlt := size_erase_lt h
  have hzero : (d.setLast k v).size - cap = 0 := by
    rw [size_setLast]
    omega
  rw [overflow, hzero]
  rfl

/-- A new key evicts the oldest keys beyond `cap - 1`. -/
theorem overflow_setLast_of_not_mem {d : OrderedDict K V} {k : K} {cap : ℕ} (hcap : 0 < cap)
    (h : k ∉ d.keys) (v : V) : (d.setLast k v).overflow cap = d.overflow (cap - 1) := by
  have hsize : (d.setLast k v).size - cap = d.size - (cap - 1) := by
    rw [size_setLast, size, erase_of_not_mem h, ← size]
    omega
  have hle : d.size - (cap - 1) ≤ d.items.length := Nat.sub_le _ _
  rw [overflow, hsize, items_setLast, erase_of_not_mem h, List.take_append_of_le_length hle]
  rfl

end OrderedDict
