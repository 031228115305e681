import Khora.Lib.DisjointSets
import Khora.Lib.Grouping
import Khora.Lib.SortBy
import Mathlib.Combinatorics.SimpleGraph.Connectivity.Connected
import Mathlib.Data.Rat.Defs

/-!
# Union-find over the indices of a bucket

`_UnionFind` keeps a parent and a size for each index.  `find` walks to the root and then
points every index on the way at it; `union` points the root of the smaller set at the root
of the larger.

* `UnionFind.Ok` — the sizes grow towards the roots, so both loops end.
* `find_spec`, `union_spec` — `find` returns the root and changes none; `union` joins the
  two sets.
* `connectedComponents_eq` — the components are the groups of the indices that occur in a
  pair, by the least equivalence that relates every pair.
-/

namespace Khora

open DisjointSets

/-- `_UnionFind` -/
structure UnionFind where
  parent : List ℕ
  size : List ℕ
deriving DecidableEq

namespace UnionFind

/-- `__init__` -/
def init (n : ℕ) : UnionFind := ⟨List.range n, List.replicate n 1⟩

/-- `self._parent[x]` -/
def parentAt (parent : List ℕ) (x : ℕ) : ℕ := parent.getD x x

/-- `self._size[x]` -/
def sizeAt (uf : UnionFind) (x : ℕ) : ℕ := uf.size.getD x 0

/-- `while self._parent[root] != root: root = self._parent[root]` -/
def rootLoop (parent : List ℕ) : ℕ → ℕ → ℕ
  | 0, root => root
  | fuel + 1, root =>
      if parentAt parent root ≠ root then rootLoop parent fuel (parentAt parent root) else root

/-- `while self._parent[x] != root: self._parent[x], x = root, self._parent[x]` -/
def compressLoop (root : ℕ) : ℕ → ℕ → List ℕ → List ℕ
  | 0, _, parent => parent
  | fuel + 1, x, parent =>
      if parentAt parent x ≠ root then
        compressLoop root fuel (parentAt parent x) (parent.set x root)
      else parent

/-- `find`: the root, and the indices with the path to it shortened. -/
def find (uf : UnionFind) (x : ℕ) : ℕ × UnionFind :=
  let root := rootLoop uf.parent uf.parent.length x
  (root, { uf with parent := compressLoop root uf.parent.length x uf.parent })

/-- The root of the smaller set, pointed at the root of the larger. -/
def link (uf : UnionFind) (ra rb : ℕ) : UnionFind :=
  { parent := uf.parent.set rb ra
    size := uf.size.set ra (uf.sizeAt ra + uf.sizeAt rb) }

/-- `union` -/
def union (uf : UnionFind) (a b : ℕ) : UnionFind :=
  let found := uf.find a
  let found' := found.2.find b
  let ra := found.1
  let rb := found'.1
  if ra = rb then found'.2
  else if found'.2.sizeAt ra < found'.2.sizeAt rb then found'.2.link rb ra
  else found'.2.link ra rb

/-- The indices that occur in a pair. -/
def touched (pairs : List (ℕ × ℕ × ℚ)) : List ℕ :=
  ((pairs.flatMap fun p => [p.1, p.2.1]).dedup).mergeSort fun i j => decide (i ≤ j)

/-- `grouped[uf.find(idx)].append(idx)`, where `find` may shorten a path. -/
def groupStep (st : UnionFind × OrderedDict ℕ (List ℕ)) (idx : ℕ) :
    UnionFind × OrderedDict ℕ (List ℕ) :=
  ((st.1.find idx).2, Grouping.appendTo st.2 (st.1.find idx).1 idx)

/-- `_connected_components` -/
def connectedComponents (n : ℕ) (pairs : List (ℕ × ℕ × ℚ)) : List (List ℕ) :=
  let uf := pairs.foldl (fun uf p => uf.union p.1 p.2.1) (init n)
  let grouped := ((touched pairs).foldl groupStep (uf, .empty)).2
  (grouped.items.map fun e => e.2.mergeSort fun i j => decide (i ≤ j)).mergeSort
    fun m m' => decide (m.headD 0 ≤ m'.headD 0)

theorem connectedComponents_nil (n : ℕ) : connectedComponents n [] = [] := by
  simp [connectedComponents, touched, OrderedDict.empty]

/-! ## The invariant -/

/-- The indices are `0` to `n - 1`, and a set is larger than what points at its root. -/
structure Ok (n : ℕ) (uf : UnionFind) : Prop where
  parents : uf.parent.length = n
  sizes : uf.size.length = n
  inside : ∀ x < n, parentAt uf.parent x < n
  positive : ∀ x < n, 0 < uf.sizeAt x
  grows : ∀ x, parentAt uf.parent x ≠ x → uf.sizeAt x < uf.sizeAt (parentAt uf.parent x)

theorem parentAt_set {parent : List ℕ} {b : ℕ} (hb : b < parent.length) (a : ℕ) :
    parentAt (parent.set b a) = Function.update (parentAt parent) b a := by
  funext x
  by_cases h : x = b
  · subst h
    simp [parentAt, hb]
  · rw [Function.update_of_ne h]
    simp [parentAt, Ne.symm h]

theorem parentAt_of_le {parent : List ℕ} {x : ℕ} (h : parent.length ≤ x) : parentAt parent x = x := by
  simp [parentAt, h]

theorem ok_init (n : ℕ) : Ok n (init n) where
  parents := List.length_range
  sizes := List.length_replicate
  inside x hx := by simp [init, parentAt, hx]
  positive x hx := by simp [init, sizeAt, hx]
  grows x hx := by
    exfalso
    apply hx
    by_cases h : x < n
    · simp [init, parentAt, h]
    · simp [init, parentAt, h]

section Loops

variable {n : ℕ} {uf : UnionFind}

/-- An index that is not a root is one of the bucket. -/
theorem Ok.lt_of_ne (h : Ok n uf) {x : ℕ} (hx : parentAt uf.parent x ≠ x) : x < n := by
  by_contra hge
  exact hx (parentAt_of_le (h.parents ▸ not_lt.mp hge))

/-- The number of indices with a larger size: what is left of a walk to the root. -/
def above (n : ℕ) (uf : UnionFind) (x : ℕ) : ℕ :=
  ((Finset.range n).filter fun y => uf.sizeAt x < uf.sizeAt y).card

theorem above_le (x : ℕ) : above n uf x ≤ n := by
  have hcard := Finset.card_filter_le (Finset.range n) fun y => uf.sizeAt x < uf.sizeAt y
  rw [Finset.card_range] at hcard
  exact hcard

/-- A step towards the root leaves less of the walk. -/
theorem Ok.above_parent (h : Ok n uf) {x : ℕ} (hx : parentAt uf.parent x ≠ x) :
    above n uf (parentAt uf.parent x) < above n uf x := by
  have hgrow := h.grows x hx
  apply Finset.card_lt_card
  rw [Finset.ssubset_iff_of_subset]
  · refine ⟨parentAt uf.parent x, ?_, ?_⟩
    · rw [Finset.mem_filter, Finset.mem_range]
      exact ⟨h.inside x (h.lt_of_ne hx), hgrow⟩
    · rw [Finset.mem_filter]
      exact fun hmem => lt_irrefl _ hmem.2
  · intro y hy
    rw [Finset.mem_filter] at hy ⊢
    exact ⟨hy.1, hgrow.trans hy.2⟩

/-- **The first loop ends at the root.** -/
theorem Ok.rootOf_rootLoop (h : Ok n uf) : ∀ (fuel x : ℕ), above n uf x ≤ fuel →
    RootOf (parentAt uf.parent) x (rootLoop uf.parent fuel x) := by
  intro fuel
  induction fuel with
  | zero =>
      intro x hfuel
      apply RootOf.root
      by_contra hx
      exact absurd (h.above_parent hx) (by omega)
  | succ fuel ih =>
      intro x hfuel
      rw [rootLoop]
      by_cases hx : parentAt uf.parent x = x
      · rw [if_neg (not_not.mpr hx)]
        exact .root hx
      · rw [if_pos hx]
        have hless := h.above_parent hx
        exact .step hx (ih _ (by omega))

theorem Ok.grounded (h : Ok n uf) : Grounded (parentAt uf.parent) :=
  fun x => ⟨_, h.rootOf_rootLoop n x (above_le x)⟩

/-- A root has the largest size on the way to it. -/
theorem Ok.size_le_root (h : Ok n uf) {x r : ℕ} (hr : RootOf (parentAt uf.parent) x r) :
    uf.sizeAt x ≤ uf.sizeAt r := by
  induction hr with
  | root _ => exact le_rfl
  | step hne _ ih => exact (h.grows _ hne).le.trans ih

theorem Ok.root_lt (h : Ok n uf) {x r : ℕ} (hr : RootOf (parentAt uf.parent) x r) (hx : x < n) :
    r < n := by
  induction hr with
  | root _ => exact hx
  | step _ _ ih => exact ih (h.inside _ hx)

/-- An index pointed at its root. -/
theorem Ok.shorten (h : Ok n uf) {x r : ℕ} (hr : RootOf (parentAt uf.parent) x r)
    (hx : parentAt uf.parent x ≠ r) : Ok n { uf with parent := uf.parent.set x r } := by
  have hne : parentAt uf.parent x ≠ x := fun heq => hx (heq.trans (hr.eq_of_isRoot heq).symm)
  have hlt := h.lt_of_ne hne
  have hset := parentAt_set (h.parents.symm ▸ hlt : x < uf.parent.length) r
  refine ⟨by simp [h.parents], h.sizes, ?_, h.positive, ?_⟩
  · intro y hy
    simp only [hset]
    by_cases hyx : y = x
    · subst hyx
      rw [Function.update_self]
      exact h.root_lt hr hy
    · rw [Function.update_of_ne hyx]
      exact h.inside y hy
  · intro y hy
    simp only [hset] at hy ⊢
    by_cases hyx : y = x
    · subst hyx
      rw [Function.update_self]
      exact (h.grows y hne).trans_le (h.size_le_root (hr.of_parent hne))
    · rw [Function.update_of_ne hyx] at hy ⊢
      exact h.grows y hy

/-- **The second loop ends, and it changes no root.** -/
theorem Ok.compressLoop_spec {root : ℕ} : ∀ (fuel x : ℕ) {uf : UnionFind}, Ok n uf →
    RootOf (parentAt uf.parent) x root → above n uf x ≤ fuel →
    Ok n { uf with parent := compressLoop root fuel x uf.parent } ∧
    (∀ y s, RootOf (parentAt uf.parent) y s →
      RootOf (parentAt (compressLoop root fuel x uf.parent)) y s) ∧
    ∀ k, compressLoop root (fuel + k) x uf.parent = compressLoop root fuel x uf.parent := by
  intro fuel
  induction fuel with
  | zero =>
      intro x uf h hr hfuel
      refine ⟨h, fun _ _ hy => hy, fun k => ?_⟩
      have hx : parentAt uf.parent x = x := by
        by_contra hx
        exact absurd (h.above_parent hx) (by omega)
      cases k with
      | zero => rfl
      | succ k =>
          rw [Nat.zero_add]
          exact if_neg (not_not.mpr (hx.trans (hr.eq_of_isRoot hx).symm))
  | succ fuel ih =>
      intro x uf h hr hfuel
      by_cases hx : parentAt uf.parent x = root
      · refine ⟨?_, ?_, fun k => ?_⟩
        · rw [compressLoop, if_neg (not_not.mpr hx)]
          exact h
        · rw [compressLoop, if_neg (not_not.mpr hx)]
          exact fun _ _ hy => hy
        · rw [Nat.add_right_comm, compressLoop, compressLoop, if_neg (not_not.mpr hx),
            if_neg (not_not.mpr hx)]
      · have hne : parentAt uf.parent x ≠ x := fun heq => hx (heq.trans (hr.eq_of_isRoot heq).symm)
        have hset := parentAt_set (h.parents.symm ▸ h.lt_of_ne hne : x < uf.parent.length) root
        have hkept : ∀ y s, RootOf (parentAt uf.parent) y s →
            RootOf (parentAt (uf.parent.set x root)) y s := by
          intro y s hy
          rw [hset]
          exact rootOf_shorten hr hy
        have hless := h.above_parent hne
        obtain ⟨hok, hroots, hmore⟩ := ih (parentAt uf.parent x) (h.shorten hr hx)
          (hkept _ _ (hr.of_parent hne)) (by
            show above n uf (parentAt uf.parent x) ≤ fuel
            omega)
        refine ⟨?_, ?_, fun k => ?_⟩
        · rw [compressLoop, if_pos hx]
          exact hok
        · rw [compressLoop, if_pos hx]
          exact fun y s hy => hroots y s (hkept y s hy)
        · rw [Nat.add_right_comm, compressLoop, compressLoop, if_pos hx, if_pos hx]
          exact hmore k

/-- **`find` returns the root, and every index keeps its own.** -/
theorem Ok.find_spec (h : Ok n uf) (x : ℕ) :
    RootOf (parentAt uf.parent) x (uf.find x).1 ∧ Ok n (uf.find x).2 ∧
      ∀ y s, RootOf (parentAt uf.parent) y s → RootOf (parentAt (uf.find x).2.parent) y s := by
  have hfuel : above n uf x ≤ uf.parent.length := h.parents.symm ▸ above_le x
  have hroot := h.rootOf_rootLoop uf.parent.length x hfuel
  obtain ⟨hok, hkept, -⟩ := Ok.compressLoop_spec uf.parent.length x h hroot hfuel
  exact ⟨hroot, hok, hkept⟩

/-- Roots that are kept are the same roots. -/
theorem same_iff_of_kept {p p' : ℕ → ℕ} (hg : Grounded p)
    (hkept : ∀ y s, RootOf p y s → RootOf p' y s) (x y : ℕ) : Same p' x y ↔ Same p x y := by
  obtain ⟨r, hr⟩ := hg x
  obtain ⟨s, hs⟩ := hg y
  rw [same_iff hr hs, same_iff (hkept x r hr) (hkept y s hs)]

/-- **A link of two roots joins their sets.** -/
theorem Ok.link_spec (h : Ok n uf) {x y a b : ℕ} (hx : RootOf (parentAt uf.parent) x a)
    (hy : RootOf (parentAt uf.parent) y b) (hyn : y < n) (hxn : x < n) (hab : a ≠ b) :
    Ok n (uf.link a b) ∧
      Joins (Same (parentAt uf.parent)) x y (Same (parentAt (uf.link a b).parent)) := by
  have han : a < n := h.root_lt hx hxn
  have hbn : b < n := h.root_lt hy hyn
  have hset := parentAt_set (h.parents.symm ▸ hbn : b < uf.parent.length) a
  have hsize : ∀ z, (uf.link a b).sizeAt z =
      if z = a then uf.sizeAt a + uf.sizeAt b else uf.sizeAt z := by
    intro z
    by_cases hz : z = a
    · subst hz
      simp [UnionFind.link, sizeAt, h.sizes, han]
    · simp [UnionFind.link, sizeAt, hz, Ne.symm hz]
  have hlarger : ∀ z, uf.sizeAt z ≤ (uf.link a b).sizeAt z := by
    intro z
    rw [hsize]
    split
    · rename_i hz
      rw [hz]
      exact Nat.le_add_right _ _
    · exact le_rfl
  constructor
  · refine ⟨by simp [UnionFind.link, h.parents], by simp [UnionFind.link, h.sizes], ?_, ?_, ?_⟩
    · intro z hz
      simp only [UnionFind.link, hset]
      by_cases hzb : z = b
      · subst hzb
        rw [Function.update_self]
        exact han
      · rw [Function.update_of_ne hzb]
        exact h.inside z hz
    · exact fun z hz => (h.positive z hz).trans_le (hlarger z)
    · intro z hz
      have hparent : parentAt (uf.link a b).parent z = Function.update (parentAt uf.parent) b a z :=
        congrFun hset z
      rw [hparent] at hz ⊢
      by_cases hzb : z = b
      · subst hzb
        rw [Function.update_self, hsize, if_neg (Ne.symm hab), hsize, if_pos rfl]
        exact Nat.lt_add_of_pos_left (h.positive a han)
      · rw [Function.update_of_ne hzb] at hz ⊢
        -- `z` is not a root, so the root `a` has grown and `z` has not
        have hza : z ≠ a := fun heq => hz (heq ▸ hx.isRoot)
        rw [hsize z, if_neg hza]
        exact (h.grows z hz).trans_le (hlarger _)
  · have hjoin := (joins_link h.grounded hx hy hab).2
    rw [← hset] at hjoin
    exact hjoin

/-- **`union` joins the sets of its arguments.** -/
theorem Ok.union_spec (h : Ok n uf) {a b : ℕ} (ha : a < n) (hb : b < n) :
    Ok n (uf.union a b) ∧
      Joins (Same (parentAt uf.parent)) a b (Same (parentAt (uf.union a b).parent)) := by
  obtain ⟨hra, hok, hkept⟩ := h.find_spec a
  obtain ⟨hrb, hok', hkept'⟩ := hok.find_spec b
  have hsame : Same (parentAt ((uf.find a).2.find b).2.parent) = Same (parentAt uf.parent) := by
    funext x y
    exact propext ((same_iff_of_kept hok.grounded hkept' x y).trans
      (same_iff_of_kept h.grounded hkept x y))
  have hra' := hkept' _ _ (hkept _ _ hra)
  have hrb' := hkept' _ _ hrb
  unfold UnionFind.union
  simp only
  by_cases heq : (uf.find a).1 = ((uf.find a).2.find b).1
  · rw [if_pos heq]
    refine ⟨hok', ?_⟩
    rw [hsame]
    apply joins_of_related
    rw [← hsame, same_iff hra' hrb']
    exact heq
  · rw [if_neg heq, ← hsame]
    split
    · obtain ⟨hlink, hjoin⟩ := hok'.link_spec hrb' hra' ha hb (Ne.symm heq)
      exact ⟨hlink, hjoin.swap (fun hxy => hxy.symm)⟩
    · exact hok'.link_spec hra' hrb' hb ha heq

end Loops

/-! ## Components -/

section Components

variable {n : ℕ} {pairs : List (ℕ × ℕ × ℚ)}

/-- The indices of each pair. -/
def edges (pairs : List (ℕ × ℕ × ℚ)) : List (ℕ × ℕ) := pairs.map fun p => (p.1, p.2.1)

/-- Two indices are connected by pairs. -/
def ConnectedBy (pairs : List (ℕ × ℕ × ℚ)) : ℕ → ℕ → Prop := Connected (edges pairs)

theorem connectedBy_equivalence (pairs : List (ℕ × ℕ × ℚ)) : Equivalence (ConnectedBy pairs) :=
  connected_equivalence _

/-- **After all unions the sets are the connected indices.** -/
theorem foldl_union_spec (hpairs : ∀ p ∈ pairs, p.1 < n ∧ p.2.1 < n) :
    Ok n (pairs.foldl (fun uf p => uf.union p.1 p.2.1) (init n)) ∧
      ∀ x y, Same (parentAt (pairs.foldl (fun uf p => uf.union p.1 p.2.1) (init n)).parent) x y ↔
        ConnectedBy pairs x y := by
  have hfold : pairs.foldl (fun uf p => uf.union p.1 p.2.1) (init n) =
      (edges pairs).foldl (fun uf q => uf.union q.1 q.2) (init n) := by
    rw [edges, List.foldl_map]
  rw [hfold]
  apply @connected_of_joins _ _ (fun uf : UnionFind => Same (parentAt uf.parent)) _ (Ok n)
    fun q => q.1 < n ∧ q.2 < n
  · intro uf q huf hq
    exact huf.union_spec hq.1 hq.2
  · exact fun uf huf => same_equivalence huf.grounded
  · exact ok_init n
  · intro q hq
    obtain ⟨p, hp, rfl⟩ := List.mem_map.mp hq
    exact hpairs p hp
  · intro x y hxy
    -- every index is its own root at the start
    have hroot : ∀ z, RootOf (parentAt (init n).parent) z z := by
      intro z
      apply RootOf.root
      by_cases h : z < n
      · simp [init, parentAt, h]
      · simp [init, parentAt, h]
    exact (same_iff (hroot x) (hroot y)).mp hxy

/-- The grouping loop, with the roots it finds. -/
theorem foldl_groupStep {f : ℕ → ℕ} (xs : List ℕ) : ∀ (uf : UnionFind) (d : OrderedDict ℕ (List ℕ)),
    Ok n uf → (∀ x, RootOf (parentAt uf.parent) x (f x)) →
    (xs.foldl groupStep (uf, d)).2 = xs.foldl (fun d x => Grouping.appendTo d (f x) x) d := by
  induction xs with
  | nil => exact fun _ _ _ _ => rfl
  | cons x xs ih =>
      intro uf d huf hf
      obtain ⟨hroot, hok, hkept⟩ := huf.find_spec x
      have hx : (uf.find x).1 = f x := hroot.unique (hf x)
      rw [List.foldl_cons, List.foldl_cons, groupStep, hx]
      exact ih _ _ hok fun y => hkept y _ (hf y)

theorem mem_touched {i : ℕ} : i ∈ touched pairs ↔ ∃ p ∈ pairs, i = p.1 ∨ i = p.2.1 := by
  simp [touched]

/-- The indices that occur in a pair, in order. -/
theorem pairwise_touched (pairs : List (ℕ × ℕ × ℚ)) : (touched pairs).Pairwise (· < ·) := by
  have hle : (touched pairs).Pairwise (· ≤ ·) := SortBy.pairwise_mergeSort id _
  have hne : (touched pairs).Pairwise (· ≠ ·) :=
    (List.mergeSort_perm _ _).nodup_iff.mpr (List.nodup_dedup _)
  exact (hle.and hne).imp fun h => lt_of_le_of_ne h.1 h.2

theorem mergeSort_of_pairwise_le {m : List ℕ} (h : m.Pairwise (· ≤ ·)) :
    (m.mergeSort fun i j => decide (i ≤ j)) = m :=
  List.mergeSort_of_pairwise (h.imp fun hij => decide_eq_true hij)

/-- **The components are the groups of the touched indices by connection.** -/
theorem connectedComponents_eq {K : Type} [DecidableEq K] {key : ℕ → K}
    (hpairs : ∀ p ∈ pairs, p.1 < n ∧ p.2.1 < n)
    (hkey : ∀ x y, key x = key y ↔ ConnectedBy pairs x y) :
    connectedComponents n pairs = Grouping.groups key (touched pairs) := by
  obtain ⟨hok, hsame⟩ := foldl_union_spec hpairs
  obtain ⟨f, hf⟩ : ∃ f : ℕ → ℕ, ∀ x, RootOf (parentAt
      (pairs.foldl (fun uf p => uf.union p.1 p.2.1) (init n)).parent) x (f x) :=
    ⟨_, fun x => (hok.grounded x).choose_spec⟩
  have hgroups : Grouping.groups f (touched pairs) = Grouping.groups key (touched pairs) := by
    apply Grouping.groups_congr
    intro x _ y _
    rw [hkey, ← hsame, same_iff (hf x) (hf y)]
  have hsorted := pairwise_touched pairs
  unfold connectedComponents
  simp only
  rw [foldl_groupStep (touched pairs) _ _ hok hf]
  show ((Grouping.groupBy f (touched pairs)).items.map _).mergeSort _ = _
  -- each group is in order, and so are the groups
  have hinner : (Grouping.groupBy f (touched pairs)).items.map
      (fun e => e.2.mergeSort fun i j => decide (i ≤ j)) = Grouping.groups f (touched pairs) := by
    rw [← Grouping.values_groupBy]
    apply List.map_congr_left
    intro e he
    apply mergeSort_of_pairwise_le
    have hmem : e.2 ∈ Grouping.groups f (touched pairs) := by
      rw [← Grouping.values_groupBy]
      exact List.mem_map.mpr ⟨e, he, rfl⟩
    obtain ⟨x, -, hx⟩ := Grouping.mem_groups.mp hmem
    rw [hx]
    exact (hsorted.imp le_of_lt).sublist List.filter_sublist
  rw [hinner, ← hgroups]
  apply List.mergeSort_of_pairwise
  have hheads : (Grouping.groups f (touched pairs)).Pairwise fun g g' =>
      ∀ x ∈ g.head?, ∀ y ∈ g'.head?, x < y := Grouping.pairwise_head_groups hsorted
  apply hheads.imp_of_mem
  intro g g' hg hg' hlt
  obtain ⟨x, hx, rfl⟩ := Grouping.mem_groups.mp hg
  obtain ⟨y, hy, rfl⟩ := Grouping.mem_groups.mp hg'
  apply decide_eq_true
  have hne : ∀ z ∈ touched pairs, (touched pairs).filter (fun w => f w = f z) ≠ [] := by
    intro z hz hnil
    have hmem : z ∈ (touched pairs).filter (fun w => f w = f z) := by simp [hz]
    rw [hnil] at hmem
    cases hmem
  obtain ⟨u, us, hu⟩ := List.exists_cons_of_ne_nil (hne x hx)
  obtain ⟨v, vs, hv⟩ := List.exists_cons_of_ne_nil (hne y hy)
  rw [hu, hv] at hlt ⊢
  exact le_of_lt (hlt u rfl v rfl)

/-- The members of a component occur in pairs. -/
theorem touched_of_mem_connectedComponents {members : List ℕ}
    (hpairs : ∀ p ∈ pairs, p.1 < n ∧ p.2.1 < n) (h : members ∈ connectedComponents n pairs)
    {i : ℕ} (hi : i ∈ members) : i ∈ touched pairs := by
  classical
  rw [@connectedComponents_eq n pairs _ _ (Quot.mk (ConnectedBy pairs)) hpairs fun x y =>
    Quot.eq.trans (Equivalence.eqvGen_iff (connectedBy_equivalence pairs))] at h
  obtain ⟨x, -, rfl⟩ := Grouping.mem_groups.mp h
  exact (List.mem_filter.mp hi).1

/-- No index is in two components. -/
theorem flatten_connectedComponents_perm (hpairs : ∀ p ∈ pairs, p.1 < n ∧ p.2.1 < n) :
    (connectedComponents n pairs).flatten.Perm (touched pairs) := by
  classical
  rw [@connectedComponents_eq n pairs _ _ (Quot.mk (ConnectedBy pairs)) hpairs fun x y =>
    Quot.eq.trans (Equivalence.eqvGen_iff (connectedBy_equivalence pairs))]
  exact Grouping.flatten_groups_perm _ _

/-! ## The graph of candidate pairs -/

/-- The indices of a bucket, with an edge for each candidate pair. -/
def candidateGraph (pairs : List (ℕ × ℕ × ℚ)) : SimpleGraph ℕ :=
  SimpleGraph.fromRel fun i j => ∃ score, (i, j, score) ∈ pairs

theorem reachable_iff_connectedBy {i j : ℕ} :
    (candidateGraph pairs).Reachable i j ↔ ConnectedBy pairs i j := by
  have hmem : ∀ {x y}, (x, y) ∈ edges pairs ↔ ∃ score, (x, y, score) ∈ pairs := by
    intro x y
    simp [edges]
  rw [SimpleGraph.reachable_iff_reflTransGen]
  constructor
  · intro h
    have hE := connectedBy_equivalence pairs
    induction h with
    | refl => exact hE.refl i
    | tail _ hadj ih =>
        apply hE.trans ih
        obtain ⟨-, hpair | hpair⟩ := (SimpleGraph.fromRel_adj _ _ _).mp hadj
        · exact Relation.EqvGen.rel _ _ (hmem.mpr hpair)
        · exact hE.symm (Relation.EqvGen.rel _ _ (hmem.mpr hpair))
  · intro h
    rw [← SimpleGraph.reachable_iff_reflTransGen]
    induction h with
    | rel x y hxy =>
        by_cases hne : x = y
        · rw [hne]
        · exact ((SimpleGraph.fromRel_adj _ _ _).mpr ⟨hne, .inl (hmem.mp hxy)⟩).reachable
    | refl x => exact SimpleGraph.Reachable.refl x
    | symm x y _ ih => exact ih.symm
    | trans x y z _ _ ih ih' => exact ih.trans ih'

/-- Two different connected indices occur in pairs. -/
theorem touched_of_connectedBy {i j : ℕ} (h : ConnectedBy pairs i j) (hne : i ≠ j) :
    i ∈ touched pairs ∧ j ∈ touched pairs := by
  have hboth : ∀ {x y}, ConnectedBy pairs x y → x = y ∨ x ∈ touched pairs ∧ y ∈ touched pairs := by
    intro x y hxy
    induction hxy with
    | rel x y hxy =>
        obtain ⟨p, hp, heq⟩ := List.mem_map.mp hxy
        cases heq
        exact .inr ⟨mem_touched.mpr ⟨p, hp, .inl rfl⟩, mem_touched.mpr ⟨p, hp, .inr rfl⟩⟩
    | refl x => exact .inl rfl
    | symm x y _ ih => exact ih.imp Eq.symm And.symm
    | trans x y z _ _ ih ih' =>
        rcases ih with rfl | ⟨hx, hy⟩
        · exact ih'
        · rcases ih' with rfl | ⟨-, hz⟩
          · exact .inr ⟨hx, hy⟩
          · exact .inr ⟨hx, hz⟩
  exact (hboth h).resolve_left hne

/-- **The components are the connected components of the candidate graph with two or more
members**, each in order. -/
theorem mem_connectedComponents (hpairs : ∀ p ∈ pairs, p.1 < n ∧ p.2.1 < n ∧ p.1 ≠ p.2.1)
    {members : List ℕ} :
    members ∈ connectedComponents n pairs ↔ members.Pairwise (· < ·) ∧ 2 ≤ members.length ∧
      ∃ C : (candidateGraph pairs).ConnectedComponent, ∀ j, j ∈ members ↔ j ∈ C.supp := by
  classical
  have hkey : ∀ x y, (candidateGraph pairs).connectedComponentMk x =
      (candidateGraph pairs).connectedComponentMk y ↔ ConnectedBy pairs x y := by
    intro x y
    rw [SimpleGraph.ConnectedComponent.eq, reachable_iff_connectedBy]
  rw [connectedComponents_eq (fun p hp => ⟨(hpairs p hp).1, (hpairs p hp).2.1⟩) hkey,
    Grouping.mem_groups]
  have hE := connectedBy_equivalence pairs
  have hsorted := pairwise_touched pairs
  constructor
  · rintro ⟨i, hi, rfl⟩
    have hmem : ∀ j, j ∈ (touched pairs).filter (fun y => (candidateGraph pairs).connectedComponentMk y =
        (candidateGraph pairs).connectedComponentMk i) ↔ ConnectedBy pairs j i := by
      intro j
      rw [List.mem_filter, decide_eq_true_eq, hkey]
      constructor
      · exact fun h => h.2
      · intro h
        refine ⟨?_, h⟩
        by_cases hji : j = i
        · rw [hji]
          exact hi
        · exact (touched_of_connectedBy h hji).1
    refine ⟨hsorted.sublist List.filter_sublist, ?_, (candidateGraph pairs).connectedComponentMk i, ?_⟩
    · -- the pair in which `i` occurs has a second index
      obtain ⟨p, hp, hip⟩ := mem_touched.mp hi
      have hpq : ConnectedBy pairs p.1 p.2.1 := Relation.EqvGen.rel _ _ (List.mem_map.mpr ⟨p, hp, rfl⟩)
      have hboth : ConnectedBy pairs p.1 i ∧ ConnectedBy pairs p.2.1 i := by
        rcases hip with rfl | rfl
        · exact ⟨hE.refl _, hE.symm hpq⟩
        · exact ⟨hpq, hE.refl _⟩
      have h₁ := (hmem p.1).mpr hboth.1
      have h₂ := (hmem p.2.1).mpr hboth.2
      by_contra hlt
      have hle := Nat.le_of_lt_succ (not_le.mp hlt)
      obtain ⟨x, hx⟩ | hnil : (∃ x, _ = [x]) ∨ _ = [] := by
        rcases Nat.le_one_iff_eq_zero_or_eq_one.mp hle with h | h
        · exact .inr (List.length_eq_zero_iff.mp h)
        · exact .inl (List.length_eq_one_iff.mp h)
      · rw [hx, List.mem_singleton] at h₁ h₂
        exact (hpairs p hp).2.2 (h₁.trans h₂.symm)
      · rw [hnil] at h₁
        cases h₁
    · intro j
      rw [hmem, SimpleGraph.ConnectedComponent.mem_supp_iff, hkey]
  · rintro ⟨horder, hlen, C, hC⟩
    -- two members are different, so they occur in pairs
    obtain ⟨i, j, rest, rfl⟩ : ∃ i j rest, members = i :: j :: rest := by
      match members, hlen with
      | i :: j :: rest, _ => exact ⟨i, j, rest, rfl⟩
    have hiC := (hC i).mp List.mem_cons_self
    have hjC := (hC j).mp (List.mem_cons_of_mem _ List.mem_cons_self)
    rw [SimpleGraph.ConnectedComponent.mem_supp_iff] at hiC hjC
    have hij : i ≠ j := (List.rel_of_pairwise_cons horder List.mem_cons_self).ne
    have hi := (touched_of_connectedBy ((hkey i j).mp (hiC.trans hjC.symm)) hij).1
    refine ⟨i, hi, ?_⟩
    have hfilter := hsorted.sublist (List.filter_sublist (p := fun y =>
      (candidateGraph pairs).connectedComponentMk y = (candidateGraph pairs).connectedComponentMk i))
    apply List.Perm.eq_of_pairwise' horder hfilter
    rw [List.perm_ext_iff_of_nodup (horder.imp ne_of_lt) (hfilter.imp ne_of_lt)]
    intro k
    rw [hC, SimpleGraph.ConnectedComponent.mem_supp_iff, List.mem_filter, decide_eq_true_eq, hiC]
    constructor
    · intro hk
      refine ⟨?_, hk⟩
      by_cases hki : k = i
      · rw [hki]
        exact hi
      · exact (touched_of_connectedBy ((hkey k i).mp (hk.trans hiC.symm)) hki).1
    · exact fun h => h.2

end Components

end UnionFind

end Khora
