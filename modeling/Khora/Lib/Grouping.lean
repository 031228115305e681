import Khora.Lib.OrderedDict
import Mathlib.Data.List.Induction
import Mathlib.Data.List.Nodup

/-!
# Grouping by a key

`grouped[key(x)].append(x)` over a list, for a `defaultdict(list)`: one group for each key, in
the order in which the keys come up, and each group in the order of the list.

* `items_groupBy` — the dictionary after the loop.
* `mem_groups`, `flatten_groups_perm`, `groups_congr` — what the groups are, that they cut the
  list up, and that they depend on the key only through which elements share one.
* `pairwise_head_groups` — a list in order has its groups in the order of their first
  elements.
-/

namespace Grouping

variable {X K L : Type*} [DecidableEq K] [DecidableEq L]

/-- `grouped[k].append(x)` -/
def appendTo (d : OrderedDict K (List X)) (k : K) (x : X) : OrderedDict K (List X) :=
  d.set k ((d.get? k).getD [] ++ [x])

/-- `for x in xs: grouped[key(x)].append(x)` -/
def groupBy (key : X → K) (xs : List X) : OrderedDict K (List X) :=
  xs.foldl (fun d x => appendTo d (key x) x) .empty

/-- The elements with each key, the keys in the order of the list. -/
def groups (key : X → K) (xs : List X) : List (List X) :=
  ((xs.map key).eraseDups).map fun k => xs.filter fun x => key x = k

theorem eraseDups_concat (ks : List K) (k : K) :
    (ks ++ [k]).eraseDups = if k ∈ ks then ks.eraseDups else ks.eraseDups ++ [k] := by
  rw [List.eraseDups_append]
  by_cases h : k ∈ ks
  · simp [List.removeAll, h]
  · simp [List.removeAll, h, List.eraseDups_cons]

theorem nodup_eraseDups (ks : List K) : ks.eraseDups.Nodup := by
  induction ks using List.reverseRecOn with
  | nil => simp
  | append_singleton ks k ih =>
      rw [eraseDups_concat]
      by_cases h : k ∈ ks
      · rw [if_pos h]
        exact ih
      · rw [if_neg h, List.nodup_append]
        refine ⟨ih, by simp, ?_⟩
        intro a ha b hb hab
        rw [List.mem_singleton] at hb
        rw [hab, hb, List.mem_eraseDups] at ha
        exact h ha

/-- **The dictionary after the loop.** -/
theorem items_groupBy (key : X → K) (xs : List X) :
    (groupBy key xs).items = ((xs.map key).eraseDups).map fun k => (k, xs.filter fun x => key x = k) := by
  induction xs using List.reverseRecOn with
  | nil => rfl
  | append_singleton xs x ih =>
      have hkeys : (groupBy key xs).keys = (xs.map key).eraseDups := by
        rw [OrderedDict.keys, ih, List.map_map]
        exact List.map_id _
      have hstep : groupBy key (xs ++ [x]) = appendTo (groupBy key xs) (key x) x := by
        rw [groupBy, List.foldl_append]
        rfl
      rw [hstep, appendTo, List.map_append, List.map_singleton, eraseDups_concat]
      by_cases hmem : key x ∈ xs.map key
      · have hkey : key x ∈ (groupBy key xs).keys := by
          rw [hkeys, List.mem_eraseDups]
          exact hmem
        have hget : (groupBy key xs).get? (key x) = some (xs.filter fun y => key y = key x) := by
          rw [OrderedDict.get?_eq_some_iff, ih]
          exact List.mem_map.mpr ⟨key x, List.mem_eraseDups.mpr hmem, rfl⟩
        rw [if_pos hmem, OrderedDict.set, dif_pos hkey, hget]
        show ((groupBy key xs).items.map _) = _
        rw [ih, List.map_map]
        apply List.map_congr_left
        intro k _
        by_cases hk : k = key x
        · simp [hk]
        · simp [hk, Ne.symm hk]
      · have hkey : key x ∉ (groupBy key xs).keys := by
          rw [hkeys, List.mem_eraseDups]
          exact hmem
        have hget : (groupBy key xs).get? (key x) = none := OrderedDict.get?_eq_none_iff.mpr hkey
        rw [if_neg hmem, OrderedDict.set, dif_neg hkey, hget]
        show (groupBy key xs).items ++ [_] = _
        rw [ih, List.map_append, List.map_singleton]
        have hnone : xs.filter (fun y => key y = key x) = [] := by
          rw [List.filter_eq_nil_iff]
          intro y hy heq
          exact hmem (List.mem_map.mpr ⟨y, hy, of_decide_eq_true heq⟩)
        congr 1
        · apply List.map_congr_left
          intro k hk
          have hne : key x ≠ k := by
            rintro rfl
            exact hmem (List.mem_eraseDups.mp hk)
          simp [hne]
        · simp [hnone]

/-- The values of the dictionary. -/
theorem values_groupBy (key : X → K) (xs : List X) :
    (groupBy key xs).items.map Prod.snd = groups key xs := by
  rw [items_groupBy, List.map_map]
  rfl

theorem mem_groups {key : X → K} {xs g : List X} :
    g ∈ groups key xs ↔ ∃ x ∈ xs, g = xs.filter fun y => key y = key x := by
  unfold groups
  simp only [List.mem_map, List.mem_eraseDups]
  constructor
  · rintro ⟨_, ⟨x, hx, rfl⟩, rfl⟩
    exact ⟨x, hx, rfl⟩
  · rintro ⟨x, hx, rfl⟩
    exact ⟨_, ⟨x, hx, rfl⟩, rfl⟩

/-- The group of the first element, then the groups of the others. -/
theorem groups_cons (key : X → K) (x : X) (xs : List X) :
    groups key (x :: xs) = (x :: xs.filter fun y => key y = key x) ::
      groups key (xs.filter fun y => key y ≠ key x) := by
  unfold groups
  rw [List.map_cons, List.eraseDups_cons, List.map_cons]
  congr 1
  · simp
  · have hkeys : (xs.map key).filter (fun k => !k == key x) =
        (xs.filter fun y => key y ≠ key x).map key := by
      rw [List.filter_map]
      congr 1
      apply List.filter_congr
      intro y _
      by_cases h : key y = key x
      · simp [h]
      · simp [h]
    rw [hkeys]
    apply List.map_congr_left
    intro k hk
    obtain ⟨y, hy, rfl⟩ := List.mem_map.mp (List.mem_eraseDups.mp hk)
    have hne : key y ≠ key x := by simpa using (List.mem_filter.mp hy).2
    rw [List.filter_cons_of_neg (by simpa using Ne.symm hne), List.filter_filter]
    apply List.filter_congr
    intro z _
    by_cases hz : key z = key y
    · simp [hz, hne]
    · simp [hz]

/-- **The groups are the list, cut up.** -/
theorem flatten_groups_perm (key : X → K) (xs : List X) : (groups key xs).flatten.Perm xs := by
  induction hn : xs.length using Nat.strongRecOn generalizing xs with
  | ind n ih =>
      cases xs with
      | nil => exact List.Perm.nil
      | cons x xs =>
          have hless : (xs.filter fun y => key y ≠ key x).length < n := by
            rw [← hn]
            exact Nat.lt_succ_of_le (List.length_filter_le _ _)
          rw [groups_cons, List.flatten_cons, List.cons_append]
          apply List.Perm.cons
          have hrest := (ih _ hless (xs.filter fun y => key y ≠ key x) rfl).append_left
            (xs.filter fun y => key y = key x)
          refine hrest.trans ?_
          have hsplit := List.filter_append_perm (fun y => decide (key y = key x)) xs
          simpa only [decide_not] using hsplit

/-- **The groups depend on the key only through which elements share one.** -/
theorem groups_congr {key : X → K} {key' : X → L} {xs : List X}
    (h : ∀ x ∈ xs, ∀ y ∈ xs, (key x = key y ↔ key' x = key' y)) :
    groups key xs = groups key' xs := by
  induction hn : xs.length using Nat.strongRecOn generalizing xs with
  | ind n ih =>
      cases xs with
      | nil => rfl
      | cons x xs =>
          have hsame : ∀ y ∈ xs, (decide (key y = key x)) = decide (key' y = key' x) := by
            intro y hy
            exact decide_eq_decide.mpr (h y (List.mem_cons_of_mem _ hy) x List.mem_cons_self)
          have hother : (xs.filter fun y => key y ≠ key x) = xs.filter fun y => key' y ≠ key' x := by
            apply List.filter_congr
            intro y hy
            simp [h y (List.mem_cons_of_mem _ hy) x List.mem_cons_self]
          rw [groups_cons, groups_cons, List.filter_congr hsame, hother]
          congr 1
          apply ih _ _ _ rfl
          · rw [← hn]
            exact Nat.lt_succ_of_le (List.length_filter_le _ _)
          · intro y hy z hz
            exact h y (List.mem_cons_of_mem _ (List.mem_filter.mp hy).1) z
              (List.mem_cons_of_mem _ (List.mem_filter.mp hz).1)

/-- **The groups of a list in order are in the order of their first elements.** -/
theorem pairwise_head_groups {r : X → X → Prop} {key : X → K} {xs : List X} (hs : xs.Pairwise r) :
    (groups key xs).Pairwise fun g g' => ∀ x ∈ g.head?, ∀ y ∈ g'.head?, r x y := by
  induction hn : xs.length using Nat.strongRecOn generalizing xs with
  | ind n ih =>
      cases xs with
      | nil => exact List.Pairwise.nil
      | cons x xs =>
          rw [List.pairwise_cons] at hs
          rw [groups_cons, List.pairwise_cons]
          constructor
          · intro g hg y hy z hz
            cases hy
            obtain ⟨w, hw, rfl⟩ := mem_groups.mp hg
            apply hs.1
            have hmem := List.mem_of_mem_head? hz
            exact (List.mem_filter.mp (List.mem_filter.mp hmem).1).1
          · apply ih _ _ (hs.2.sublist List.filter_sublist) rfl
            rw [← hn]
            exact Nat.lt_succ_of_le (List.length_filter_le _ _)

/-- Reading a list at all its places. -/
theorem filterMap_getElem?_range {α : Type} (l : List α) :
    (List.range l.length).filterMap (fun i => l[i]?) = l := by
  have hmap : (List.range l.length).map (fun i => l[i]?) = l.map some := by
    apply List.ext_getElem
    · simp
    · intro i h₁ h₂
      simp
  have hid : (List.range l.length).filterMap (fun i => l[i]?) =
      ((List.range l.length).map fun i => l[i]?).filterMap id := by
    rw [List.filterMap_map]
    rfl
  rw [hid, hmap, List.filterMap_map]
  exact List.filterMap_some

end Grouping
