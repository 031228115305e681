import Khora.Engine.UnionFusion
import Khora.Lib.KeyedSum
import Khora.Lib.SortBy
import Mathlib.Algebra.Order.BigOperators.Group.List

/-!
# Fusion by weighted reciprocal ranks

`weighted_rrf_nlist` adds up, for every item, `weight / (k + rank)` over the sources that have it, and a
hundredth of its normalized score there; `weighted_rrf_normalized` does so for two sources.

* `weightedRrfNormalized_eq_nlist` — the fuser of two sources is the general one.
* `dominant_first` — an item that no source ranks lower than another comes first.
-/

namespace Khora

namespace RankFusion

open KeyedSum

variable {I T : Type}

/-- The results of one source, with its weight. -/
structure Source (I T : Type) where
  results : List (I × ℚ × T)
  weight : ℚ

def Source.ids (s : Source I T) : List I := s.results.map Prod.fst

/-- The results with their normalized scores and their ranks. -/
def Source.ranked (s : Source I T) : List (((I × ℚ × T) × ℚ) × ℕ) :=
  (s.results.zip (minMaxNormalize (s.results.map fun r => r.2.1))).zipIdx 1

/-- What the loop over a source adds to `rrf_scores`. -/
def Source.rrfEntries (k : ℕ) (s : Source I T) : List (I × ℚ) :=
  s.ranked.map fun p => (p.1.1.1, s.weight / (k + p.2))

/-- What it adds to `score_contributions`. -/
def Source.contributions (s : Source I T) : List (I × ℚ) :=
  s.ranked.map fun p => (p.1.1.1, s.weight * p.1.2 / 100)

section Fusers

variable [DecidableEq I]

/-- `if item_id not in items: items[item_id] = item` -/
def keepItem (items : OrderedDict I T) (r : I × ℚ × T) : OrderedDict I T :=
  if (items.get? r.1).isSome then items else items.set r.1 r.2.2

/-- `items[item_id] = item` -/
def setItem (items : OrderedDict I T) (r : I × ℚ × T) : OrderedDict I T := items.set r.1 r.2.2

/-- `final_scores` -/
def finalScores (rrfScores contributions : OrderedDict I ℚ) : List (I × ℚ) :=
  rrfScores.items.map fun e => (e.1, e.2 + (contributions.get? e.1).getD 0)

/-- `fused.sort(key=lambda x: x.rrf_score, reverse=True)` -/
def byScore (fused : List (FusedResult I T)) : List (FusedResult I T) :=
  fused.mergeSort fun a b => b.rrfScore ≤ a.rrfScore

/-- `weighted_rrf_nlist`; the sources have an item for every score. -/
def weightedRrfNlist (k : ℕ) (sources : List (Source I T)) : List (FusedResult I T) :=
  let items := (sources.flatMap Source.results).foldl keepItem OrderedDict.empty
  byScore ((finalScores (accumulate (sources.flatMap (Source.rrfEntries k)))
    (accumulate (sources.flatMap Source.contributions))).filterMap fun e =>
      (items.get? e.1).map fun item => ⟨e.1, item, e.2, none, none, none, none, none, none⟩)

/-- `ranks[item_id] = …` and `scores[item_id] = …`, result by result. -/
def Source.recorded {X : Type} (s : Source I T) (value : ((I × ℚ × T) × ℚ) × ℕ → X) : OrderedDict I X :=
  s.ranked.foldl (fun d p => d.set p.1.1.1 (value p)) OrderedDict.empty

/-- `weighted_rrf_normalized`; an empty list adds nothing. -/
def weightedRrfNormalized (k : ℕ) (vector graph : Source I T) : List (FusedResult I T) :=
  let rrfScores := (graph.rrfEntries k).foldl add ((vector.rrfEntries k).foldl add OrderedDict.empty)
  let contributions := graph.contributions.foldl add (vector.contributions.foldl add OrderedDict.empty)
  let items := graph.results.foldl keepItem (vector.results.foldl setItem OrderedDict.empty)
  byScore ((finalScores rrfScores contributions).filterMap fun e =>
    (items.get? e.1).map fun item =>
      ⟨e.1, item, e.2, (vector.recorded Prod.snd).get? e.1, (graph.recorded Prod.snd).get? e.1,
        (vector.recorded fun p => p.1.1.2.1).get? e.1, (graph.recorded fun p => p.1.1.2.1).get? e.1, none, none⟩)

end Fusers

/-! ## The points of an item -/

section Points

variable [DecidableEq I]

/-- The points that a source gives to an item. -/
def Source.points (k : ℕ) (s : Source I T) (id : I) : ℚ :=
  ((s.ranked.filter fun p => p.1.1.1 = id).map fun p => s.weight / (k + p.2) + s.weight * p.1.2 / 100).sum

/-- Those of all sources. -/
def total (k : ℕ) (sources : List (Source I T)) (id : I) : ℚ := (sources.map fun s => s.points k id).sum

omit [DecidableEq I] in
theorem map_id_ranked (s : Source I T) : s.ranked.map (fun p => p.1.1.1) = s.ids := by
  have hlength : (minMaxNormalize (s.results.map fun r => r.2.1)).length = s.results.length := by
    rw [UnionFusion.length_minMaxNormalize, List.length_map]
  have hzip : s.ranked.map (fun p => p.1.1.1) =
      ((s.ranked.map Prod.fst).map Prod.fst).map Prod.fst := by
    rw [List.map_map, List.map_map]
    rfl
  rw [hzip, Source.ranked, List.zipIdx_map_fst, List.map_fst_zip hlength.ge, Source.ids]

theorem points_eq (k : ℕ) (s : Source I T) (id : I) :
    s.points k id = sumAt id (s.rrfEntries k) + sumAt id s.contributions := by
  rw [Source.points, List.sum_map_add, sumAt, sumAt, Source.rrfEntries, Source.contributions, List.filter_map,
    List.filter_map, List.map_map, List.map_map]
  rfl

theorem total_eq (k : ℕ) (sources : List (Source I T)) (id : I) :
    total k sources id =
      sumAt id (sources.flatMap (Source.rrfEntries k)) + sumAt id (sources.flatMap Source.contributions) := by
  rw [sumAt_flatMap, sumAt_flatMap, ← List.sum_map_add, total]
  simp only [points_eq]

omit [DecidableEq I] in
theorem mem_entries {f : Source I T → List (I × ℚ)} (hf : ∀ s, (f s).map Prod.fst = s.ids)
    {sources : List (Source I T)} {id : I} :
    id ∈ (sources.flatMap f).map Prod.fst ↔ ∃ s ∈ sources, id ∈ s.ids := by
  simp only [List.map_flatMap, List.mem_flatMap, hf]

omit [DecidableEq I] in
theorem map_fst_rrfEntries (k : ℕ) (s : Source I T) : (s.rrfEntries k).map Prod.fst = s.ids := by
  rw [Source.rrfEntries, List.map_map, ← map_id_ranked]
  rfl

omit [DecidableEq I] in
theorem map_fst_contributions (s : Source I T) : s.contributions.map Prod.fst = s.ids := by
  rw [Source.contributions, List.map_map, ← map_id_ranked]
  rfl

/-- The final scores are the points, once for each item. -/
theorem mem_finalScores {k : ℕ} {sources : List (Source I T)} {e : I × ℚ} :
    e ∈ finalScores (accumulate (sources.flatMap (Source.rrfEntries k)))
        (accumulate (sources.flatMap Source.contributions)) ↔
      (∃ s ∈ sources, e.1 ∈ s.ids) ∧ e.2 = total k sources e.1 := by
  have hmem : ∀ x, (x ∈ (accumulate (sources.flatMap (Source.rrfEntries k))).items ↔
      (∃ s ∈ sources, x.1 ∈ s.ids) ∧ x.2 = sumAt x.1 (sources.flatMap (Source.rrfEntries k))) := by
    rintro ⟨id, v⟩
    rw [← OrderedDict.get?_eq_some_iff, get?_accumulate, ← mem_entries (map_fst_rrfEntries k)]
    by_cases h : id ∈ (sources.flatMap (Source.rrfEntries k)).map Prod.fst
    · simp [h, eq_comm]
    · simp [h]
  have hsum : ∀ id, (∃ s ∈ sources, id ∈ s.ids) →
      ((accumulate (sources.flatMap Source.contributions)).get? id).getD 0 =
        sumAt id (sources.flatMap Source.contributions) := by
    intro id h
    rw [get?_accumulate, if_pos ((mem_entries map_fst_contributions).mpr h), Option.getD_some]
  rw [finalScores, List.mem_map]
  constructor
  · rintro ⟨x, hx, rfl⟩
    obtain ⟨hids, hv⟩ := (hmem x).mp hx
    exact ⟨hids, by rw [total_eq, hv, hsum x.1 hids]⟩
  · rintro ⟨hids, hv⟩
    refine ⟨(e.1, sumAt e.1 (sources.flatMap (Source.rrfEntries k))), (hmem _).mpr ⟨hids, rfl⟩, ?_⟩
    rw [hsum e.1 hids, ← total_eq, ← hv]

theorem get?_keepItem (results : List (I × ℚ × T)) (items : OrderedDict I T) (id : I) :
    (results.foldl keepItem items).get? id =
      (items.get? id).or ((results.find? fun r => r.1 = id).map fun r => r.2.2) := by
  induction results generalizing items with
  | nil => simp
  | cons r results ih =>
      rw [List.foldl_cons, ih, keepItem, List.find?_cons]
      by_cases hr : r.1 = id
      · subst hr
        cases hget : items.get? r.1 with
        | none => simp [OrderedDict.get?_set]
        | some item => simp [hget]
      · cases hget : items.get? r.1 with
        | none => simp [OrderedDict.get?_set, hr, Ne.symm hr]
        | some item => simp [hr]

/-- Every item of a source is kept. -/
theorem isSome_items {sources : List (Source I T)} {id : I} (h : ∃ s ∈ sources, id ∈ s.ids) :
    (((sources.flatMap Source.results).foldl keepItem OrderedDict.empty).get? id).isSome = true := by
  obtain ⟨s, hs, hid⟩ := h
  obtain ⟨r, hr, rfl⟩ := List.mem_map.mp hid
  rw [get?_keepItem, OrderedDict.get?_empty, Option.none_or, Option.isSome_map, List.find?_isSome]
  exact ⟨r, List.mem_flatMap.mpr ⟨s, hs, hr⟩, decide_eq_true rfl⟩

end Points

/-! ## The fused list -/

theorem perm_byScore (fused : List (FusedResult I T)) : (byScore fused).Perm fused := List.mergeSort_perm _ _

theorem pairwise_byScore (fused : List (FusedResult I T)) :
    (byScore fused).Pairwise fun a b => b.rrfScore ≤ a.rrfScore :=
  SortBy.pairwise_mergeSort (fun f : FusedResult I T => OrderDual.toDual f.rrfScore) fused

/-- What the two fusers have in common. -/
def scored (f : FusedResult I T) : I × T × ℚ := (f.itemId, f.item, f.rrfScore)

theorem map_scored_byScore (fused : List (FusedResult I T)) :
    (byScore fused).map scored = (fused.map scored).mergeSort fun a b => b.2.2 ≤ a.2.2 :=
  List.map_mergeSort fun _ _ _ _ => rfl

theorem foldl_min_le (s : ℚ) (scores : List ℚ) :
    scores.foldl min s ≤ s ∧ ∀ x ∈ scores, scores.foldl min s ≤ x := by
  induction scores generalizing s with
  | nil => exact ⟨le_rfl, nofun⟩
  | cons y scores ih =>
      obtain ⟨hle, hall⟩ := ih (min s y)
      refine ⟨hle.trans (min_le_left s y), fun x hx => ?_⟩
      rcases List.mem_cons.mp hx with rfl | hx
      · exact hle.trans (min_le_right s x)
      · exact hall x hx

theorem le_foldl_max (s : ℚ) (scores : List ℚ) : s ≤ scores.foldl max s := by
  induction scores generalizing s with
  | nil => exact le_rfl
  | cons y scores ih => exact (le_max_left s y).trans (ih (max s y))

/-- Normalizing keeps the order, and no score is negative. -/
theorem minMaxNormalize_mono (scores : List ℚ) :
    ∃ g : ℚ → ℚ, Monotone g ∧ (∀ x ∈ scores, 0 ≤ g x) ∧ minMaxNormalize scores = scores.map g := by
  cases scores with
  | nil => exact ⟨id, monotone_id, nofun, rfl⟩
  | cons s scores =>
      obtain ⟨hs, hall⟩ := foldl_min_le s scores
      have hrange := hs.trans (le_foldl_max s scores)
      simp only [minMaxNormalize]
      split
      case isTrue => exact ⟨fun _ => 1, monotone_const, fun _ _ => zero_le_one, rfl⟩
      case isFalse hne =>
        refine ⟨fun x => (x - scores.foldl min s) / (scores.foldl max s - scores.foldl min s), ?_, ?_, rfl⟩
        · intro x y hxy
          exact div_le_div_of_nonneg_right (sub_le_sub_right hxy _) (sub_nonneg.mpr hrange)
        · intro x hx
          refine div_nonneg (sub_nonneg.mpr ?_) (sub_nonneg.mpr hrange)
          rcases List.mem_cons.mp hx with rfl | hx
          · exact hs
          · exact hall x hx

section Fused

variable [DecidableEq I] {k : ℕ} {sources : List (Source I T)}

/-- The ids of the fused list are those that have a score. -/
theorem map_itemId_nlist : ((weightedRrfNlist k sources).map FusedResult.itemId).Perm
    ((finalScores (accumulate (sources.flatMap (Source.rrfEntries k)))
      (accumulate (sources.flatMap Source.contributions))).map Prod.fst) := by
  refine ((perm_byScore _).map _).trans ?_
  rw [List.map_filterMap, ← List.filterMap_eq_map]
  refine List.Perm.of_eq (List.filterMap_congr fun e he => ?_)
  obtain ⟨item, hitem⟩ := Option.isSome_iff_exists.mp (isSome_items (mem_finalScores.mp he).1)
  rw [hitem]
  rfl

theorem mem_ids_nlist {id : I} :
    id ∈ (weightedRrfNlist k sources).map FusedResult.itemId ↔ ∃ s ∈ sources, id ∈ s.ids := by
  rw [map_itemId_nlist.mem_iff, List.mem_map]
  constructor
  · rintro ⟨e, he, rfl⟩
    exact (mem_finalScores.mp he).1
  · intro h
    exact ⟨(id, total k sources id), mem_finalScores.mpr ⟨h, rfl⟩, rfl⟩

theorem mem_nlist {f : FusedResult I T} (h : f ∈ weightedRrfNlist k sources) :
    f.rrfScore = total k sources f.itemId ∧
      ((sources.flatMap Source.results).find? fun r => r.1 = f.itemId).map (fun r => r.2.2) = some f.item := by
  obtain ⟨e, he, hf⟩ := List.mem_filterMap.mp ((perm_byScore _).mem_iff.mp h)
  obtain ⟨item, hitem, rfl⟩ := Option.map_eq_some_iff.mp hf
  rw [get?_keepItem, OrderedDict.get?_empty, Option.none_or] at hitem
  exact ⟨(mem_finalScores.mp he).2, hitem⟩

/-! ## Two sources -/

/-- Items of different ids are set as they are kept. -/
theorem foldl_setItem {results : List (I × ℚ × T)} (hn : (results.map Prod.fst).Nodup) (items : OrderedDict I T)
    (hfresh : ∀ r ∈ results, items.get? r.1 = none) :
    results.foldl setItem items = results.foldl keepItem items := by
  induction results generalizing items with
  | nil => rfl
  | cons r results ih =>
      rw [List.map_cons, List.nodup_cons] at hn
      have hkeep : keepItem items r = setItem items r := by
        rw [keepItem, hfresh r List.mem_cons_self, Option.isSome_none, if_neg Bool.false_ne_true, setItem]
      rw [List.foldl_cons, List.foldl_cons, hkeep]
      refine ih hn.2 _ fun r' hr' => ?_
      have hne : r'.1 ≠ r.1 := fun heq => hn.1 (heq ▸ List.mem_map_of_mem hr')
      rw [setItem, OrderedDict.get?_set, if_neg hne, hfresh r' (List.mem_cons_of_mem _ hr')]

/-- **The fuser of two sources is the general one**: the same items with the same scores in the same order. -/
theorem weightedRrfNormalized_eq_nlist (k : ℕ) {vector : Source I T} (graph : Source I T) (hn : vector.ids.Nodup) :
    (weightedRrfNormalized k vector graph).map scored = (weightedRrfNlist k [vector, graph]).map scored := by
  have hitems : (vector.results ++ graph.results).foldl keepItem OrderedDict.empty =
      graph.results.foldl keepItem (vector.results.foldl setItem OrderedDict.empty) := by
    rw [foldl_setItem hn _ fun r _ => OrderedDict.get?_empty r.1, List.foldl_append]
  have hadd : ∀ entries entries' : List (I × ℚ),
      accumulate (entries ++ entries') = entries'.foldl add (entries.foldl add OrderedDict.empty) :=
    fun entries entries' => List.foldl_append
  simp only [weightedRrfNormalized, weightedRrfNlist, map_scored_byScore, List.flatMap_cons, List.flatMap_nil,
    List.append_nil, hitems, hadd, List.map_filterMap, Option.map_map]
  rfl

def vectorTwo : Source ℕ String := ⟨[(1, 9 / 10, "a"), (2, 1 / 2, "b")], 3 / 5⟩

def graphOne : Source ℕ String := ⟨[(1, 4, "a")], 2 / 5⟩

theorem weightedRrfNormalized_eq_nlist_twoItems :
    (weightedRrfNormalized 60 vectorTwo graphOne).map scored =
      (weightedRrfNlist 60 [vectorTwo, graphOne]).map scored :=
  weightedRrfNormalized_eq_nlist 60 _ (by decide)

/-! ## Dominant items -/

/-- Where an item stands, its points are those of its rank and of its score. -/
theorem points_of_getElem? {s : Source I T} (hn : s.ids.Nodup) {g : ℚ → ℚ}
    (hg : minMaxNormalize (s.results.map fun r => r.2.1) = (s.results.map fun r => r.2.1).map g) {i : ℕ}
    {r : I × ℚ × T} (h : s.results[i]? = some r) (k : ℕ) :
    s.points k r.1 = s.weight / (k + (i + 1 : ℕ)) + s.weight * g r.2.1 / 100 := by
  have hzip : (s.results.zip (minMaxNormalize (s.results.map fun r => r.2.1)))[i]? = some (r, g r.2.1) := by
    rw [List.getElem?_zip_eq_some, hg, List.getElem?_map, List.getElem?_map, h]
    exact ⟨rfl, rfl⟩
  have hranked : ((r, g r.2.1), i + 1) ∈ s.ranked := by
    apply List.mem_iff_getElem?.mpr
    exact ⟨i, by rw [Source.ranked, List.getElem?_zipIdx, hzip, Option.map_some, Nat.add_comm]⟩
  have hrrf : (r.1, s.weight / (k + (i + 1 : ℕ))) ∈ s.rrfEntries k := List.mem_map.mpr ⟨_, hranked, rfl⟩
  have hcontribution : (r.1, s.weight * g r.2.1 / 100) ∈ s.contributions := List.mem_map.mpr ⟨_, hranked, rfl⟩
  rw [points_eq, sumAt_of_mem (by rwa [map_fst_rrfEntries]) hrrf,
    sumAt_of_mem (by rwa [map_fst_contributions]) hcontribution]

theorem points_of_not_mem {s : Source I T} {id : I} (h : id ∉ s.ids) (k : ℕ) : s.points k id = 0 := by
  rw [points_eq, sumAt_of_not_mem (by rwa [map_fst_rrfEntries]), sumAt_of_not_mem (by rwa [map_fst_contributions]),
    add_zero]

/-- Distinct ids and scores that do not rise, with a weight that is not negative. -/
structure Source.Ranked (s : Source I T) : Prop where
  ids : s.ids.Nodup
  scores : s.results.Pairwise fun r r' => r'.2.1 ≤ r.2.1
  weight : 0 ≤ s.weight

/-- The source has `a`, and not after `b`, if it has `b`. -/
def Source.Prefers (s : Source I T) (a b : I) : Prop :=
  ∀ j : ℕ, s.ids[j]? = some b → ∃ i : ℕ, i ≤ j ∧ s.ids[i]? = some a

/-- It has `a`, and `b` only behind it. -/
def Source.Before (s : Source I T) (a b : I) : Prop :=
  ∃ i : ℕ, s.ids[i]? = some a ∧ ∀ j : ℕ, s.ids[j]? = some b → i < j

omit [DecidableEq I] in
theorem exists_result {s : Source I T} {i : ℕ} {id : I} (h : s.ids[i]? = some id) :
    ∃ r, s.results[i]? = some r ∧ r.1 = id := by
  rw [Source.ids, List.getElem?_map] at h
  exact Option.map_eq_some_iff.mp h

/-- Of two items, the one that stands first has no lower score. -/
theorem exists_points {s : Source I T} (hs : s.Ranked) {a b : I} {i j : ℕ} (ha : s.ids[i]? = some a)
    (hb : s.ids[j]? = some b) (hij : i ≤ j) (k : ℕ) :
    ∃ x y : ℚ, 0 ≤ y ∧ y ≤ x ∧ s.points k a = s.weight / (k + (i + 1 : ℕ)) + s.weight * x / 100 ∧
      s.points k b = s.weight / (k + (j + 1 : ℕ)) + s.weight * y / 100 := by
  obtain ⟨ra, hra, rfl⟩ := exists_result ha
  obtain ⟨rb, hrb, rfl⟩ := exists_result hb
  obtain ⟨g, hmono, hnonneg, hg⟩ := minMaxNormalize_mono (s.results.map fun r => r.2.1)
  have hscore : rb.2.1 ≤ ra.2.1 := by
    rcases hij.eq_or_lt with rfl | hlt
    · rw [hrb] at hra
      rw [Option.some.inj hra]
    · obtain ⟨hi', rfl⟩ := List.getElem?_eq_some_iff.mp hra
      obtain ⟨hj', rfl⟩ := List.getElem?_eq_some_iff.mp hrb
      exact List.pairwise_iff_getElem.mp hs.scores i j hi' hj' hlt
  exact ⟨g ra.2.1, g rb.2.1, hnonneg _ (List.mem_map_of_mem (List.mem_of_getElem? hrb)), hmono hscore,
    points_of_getElem? hs.ids hg hra k, points_of_getElem? hs.ids hg hrb k⟩

theorem points_nonneg {s : Source I T} (hs : s.Ranked) (k : ℕ) (id : I) : 0 ≤ s.points k id := by
  have hweight := hs.weight
  by_cases hid : id ∈ s.ids
  · obtain ⟨i, hi⟩ := List.mem_iff_getElem?.mp hid
    obtain ⟨x, y, hy, -, -, hpoints⟩ := exists_points hs hi hi le_rfl k
    rw [hpoints]
    positivity
  · exact (points_of_not_mem hid k).ge

theorem points_le {s : Source I T} (hs : s.Ranked) {a b : I} (h : s.Prefers a b) (k : ℕ) :
    s.points k b ≤ s.points k a := by
  have hweight := hs.weight
  by_cases hb : b ∈ s.ids
  · obtain ⟨j, hj⟩ := List.mem_iff_getElem?.mp hb
    obtain ⟨i, hij, hi⟩ := h j hj
    obtain ⟨x, y, hy, hyx, hpa, hpb⟩ := exists_points hs hi hj hij k
    rw [hpa, hpb]
    have hrank : ((i + 1 : ℕ) : ℚ) ≤ ((j + 1 : ℕ) : ℚ) := by exact_mod_cast Nat.succ_le_succ hij
    gcongr
  · rw [points_of_not_mem hb]
    exact points_nonneg hs k a

theorem points_lt {s : Source I T} (hs : s.Ranked) (hpos : 0 < s.weight) {a b : I} (h : s.Before a b) (k : ℕ) :
    s.points k b < s.points k a := by
  obtain ⟨i, hi, hbehind⟩ := h
  by_cases hb : b ∈ s.ids
  · obtain ⟨j, hj⟩ := List.mem_iff_getElem?.mp hb
    obtain ⟨x, y, hy, hyx, hpa, hpb⟩ := exists_points hs hi hj (hbehind j hj).le k
    rw [hpa, hpb]
    have hrank : ((i + 1 : ℕ) : ℚ) < ((j + 1 : ℕ) : ℚ) := by exact_mod_cast Nat.succ_lt_succ (hbehind j hj)
    have hfrac : s.weight / (k + (j + 1 : ℕ)) < s.weight / (k + (i + 1 : ℕ)) := by gcongr
    exact add_lt_add_of_lt_of_le hfrac (by gcongr)
  · obtain ⟨x, y, hy, -, -, hpa⟩ := exists_points hs hi hi le_rfl k
    rw [points_of_not_mem hb, hpa]
    positivity

/-- **An item that every source prefers to another**, and that one with a weight has before it, comes first. -/
theorem dominant_first {k : ℕ} {sources : List (Source I T)} (hranked : ∀ s ∈ sources, s.Ranked) {a b : I}
    (hprefers : ∀ s ∈ sources, s.Prefers a b) (hbefore : ∃ s ∈ sources, 0 < s.weight ∧ s.Before a b) {i j : ℕ}
    {fa fb : FusedResult I T} (hi : (weightedRrfNlist k sources)[i]? = some fa)
    (hj : (weightedRrfNlist k sources)[j]? = some fb) (ha : fa.itemId = a) (hb : fb.itemId = b) : i < j := by
  subst ha hb
  have hlt : fb.rrfScore < fa.rrfScore := by
    rw [(mem_nlist (List.mem_of_getElem? hi)).1, (mem_nlist (List.mem_of_getElem? hj)).1]
    obtain ⟨s, hs, hweight, hfirst⟩ := hbefore
    exact List.sum_lt_sum _ _ (fun s hs => points_le (hranked s hs) (hprefers s hs) k)
      ⟨s, hs, points_lt (hranked s hs) hweight hfirst k⟩
  -- behind stand only lesser scores
  by_contra hle
  rcases (not_lt.mp hle).eq_or_lt with rfl | hji
  · rw [hi] at hj
    cases hj
    exact lt_irrefl _ hlt
  · obtain ⟨hi', rfl⟩ := List.getElem?_eq_some_iff.mp hi
    obtain ⟨hj', rfl⟩ := List.getElem?_eq_some_iff.mp hj
    exact absurd hlt (not_lt.mpr (List.pairwise_iff_getElem.mp (pairwise_byScore _) j i hj' hi' hji))

theorem dominant_first_twoItems : ∃ (i j : ℕ) (fa fb : FusedResult ℕ String),
    (weightedRrfNlist 60 [vectorTwo, graphOne])[i]? = some fa ∧
      (weightedRrfNlist 60 [vectorTwo, graphOne])[j]? = some fb ∧ fa.itemId = 1 ∧ fb.itemId = 2 ∧ i < j := by
  have hmem : ∀ id ∈ [1, 2], ∃ s ∈ [vectorTwo, graphOne], id ∈ s.ids := by decide
  obtain ⟨fa, hfa, ha⟩ := List.mem_map.mp (mem_ids_nlist.mpr (hmem 1 (by decide)))
  obtain ⟨fb, hfb, hb⟩ := List.mem_map.mp (mem_ids_nlist.mpr (hmem 2 (by decide)))
  obtain ⟨i, hi⟩ := List.mem_iff_getElem?.mp hfa
  obtain ⟨j, hj⟩ := List.mem_iff_getElem?.mp hfb
  have hfirst : ∀ s ∈ [vectorTwo, graphOne], s.ids[0]? = some 1 := by decide
  refine ⟨i, j, fa, fb, hi, hj, ha, hb, dominant_first (fun s hs => ?_) (fun s hs _ _ => ?_) ?_ hi hj ha hb⟩
  · rcases List.mem_pair.mp hs with rfl | rfl <;> exact ⟨by decide, by decide +kernel, by decide +kernel⟩
  · exact ⟨0, Nat.zero_le _, hfirst s hs⟩
  · refine ⟨_, List.mem_cons_self, by decide +kernel, 0, rfl, fun j hj => Nat.pos_of_ne_zero ?_⟩
    rintro rfl
    cases hj

end Fused

end RankFusion

end Khora
