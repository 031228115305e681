import Khora.Engine.UnionFusion
import Khora.Lib.PySeq
import Khora.Lib.SortBy

/-!
# The window of the reranker

Only the first items of the fused list go to the cross-encoder.  Boosts have re-sorted the list since
the channels were merged, so under a union mode every channel has a quota of its best ranks in the
window, and the other places are filled in list order.

* `card_fillWindow` — filling stops at the size of the window, or at the end of the list.
* `selectRerankWindow_spec` — the two parts of the list, the size of the window, and the quotas.
-/

namespace Khora

namespace RerankWindow

/-! ## The window -/

inductive FusionMode where
  | rrf
  | calibrated
  | unionBestRank
  | unionMnz
deriving DecidableEq, Repr

/-- `fusion_mode in _UNION_FUSION_MODES` -/
def FusionMode.isUnion : FusionMode → Bool
  | unionBestRank => true
  | unionMnz => true
  | _ => false

structure RetrieverConfig where
  fusionMode : FusionMode
  unionRankChannels : List String

variable {I T : Type} [DecidableEq I]

/-- `channel_attr_by_name` -/
def channelAttrByName : List (String × (FusedResult I T → Option ℕ)) :=
  [("vector", FusedResult.vectorRank), ("graph", FusedResult.graphRank), ("bm25", FusedResult.bm25Rank)]

variable (config : RetrieverConfig) (fused : List (FusedResult I T)) (topN : ℤ)

/-- The attributes of the channels that are enabled and have an item in the list. -/
def activeChannels : List (FusedResult I T → Option ℕ) :=
  (channelAttrByName.filter fun c => c.1 ∈ config.unionRankChannels ∧ ∃ r ∈ fused, (c.2 r).isSome = true).map
    Prod.snd

/-- The items of a channel, best rank first. -/
def members (attr : FusedResult I T → Option ℕ) : List (FusedResult I T) :=
  (fused.filter fun r => (attr r).isSome).mergeSort fun a b => (attr a).getD 0 ≤ (attr b).getD 0

/-- `guaranteed_ids` -/
def guaranteedIds (active : List (FusedResult I T → Option ℕ)) (quota : ℕ) : Finset I :=
  active.foldl (fun ids attr => ids ∪ (((members fused attr).take quota).map FusedResult.itemId).toFinset) ∅

/-- The loop that fills the window in the order of the list. -/
def fillWindow (topN : ℕ) : Finset I → List (FusedResult I T) → Finset I
  | ids, [] => ids
  | ids, r :: rs => if topN ≤ ids.card then ids else fillWindow topN (insert r.itemId ids) rs

/-- `_select_rerank_window` -/
def selectRerankWindow : List (FusedResult I T) × List (FusedResult I T) :=
  let slices := (PySeq.slice fused 0 topN, PySeq.slice fused topN fused.length)
  if config.fusionMode.isUnion then
    let active := activeChannels config fused
    if active = [] ∨ topN ≤ 0 then slices
    else
      let quota := topN.toNat / active.length
      let windowIds := fillWindow topN.toNat (guaranteedIds fused active quota) fused
      (fused.filter fun r => r.itemId ∈ windowIds, fused.filter fun r => r.itemId ∉ windowIds)
  else slices

/-! ## Counting -/

section Fill

variable {fused} {n : ℕ} {ids : Finset I}

theorem subset_fillWindow (rs : List (FusedResult I T)) (ids : Finset I) : ids ⊆ fillWindow n ids rs := by
  induction rs generalizing ids with
  | nil => exact subset_rfl
  | cons r rs ih =>
      rw [fillWindow]
      split
      · exact subset_rfl
      · exact (Finset.subset_insert _ _).trans (ih _)

theorem fillWindow_subset (rs : List (FusedResult I T)) (ids : Finset I) :
    fillWindow n ids rs ⊆ ids ∪ (rs.map FusedResult.itemId).toFinset := by
  induction rs generalizing ids with
  | nil => exact Finset.subset_union_left
  | cons r rs ih =>
      rw [fillWindow]
      split
      · exact Finset.subset_union_left
      · intro i hi
        have := ih _ hi
        simp only [Finset.mem_union, Finset.mem_insert, List.map_cons, List.toFinset_cons] at this ⊢
        tauto

/-- **Filling stops at the size of the window**, or when the list is used up. -/
theorem card_fillWindow (rs : List (FusedResult I T)) (ids : Finset I) (h : ids.card ≤ n) :
    (fillWindow n ids rs).card = min n (ids ∪ (rs.map FusedResult.itemId).toFinset).card := by
  induction rs generalizing ids with
  | nil => simp [fillWindow, h]
  | cons r rs ih =>
      rw [fillWindow]
      split
      case isTrue hfull =>
        have hle : ids.card ≤ (ids ∪ ((r :: rs).map FusedResult.itemId).toFinset).card :=
          Finset.card_le_card Finset.subset_union_left
        omega
      case isFalse hroom =>
        have hinsert : (insert r.itemId ids).card ≤ n :=
          (Finset.card_insert_le _ _).trans (by omega)
        rw [ih _ hinsert, List.map_cons, List.toFinset_cons, Finset.insert_union, Finset.union_insert]

end Fill

theorem card_guaranteedIds (active : List (FusedResult I T → Option ℕ)) (quota : ℕ) :
    (guaranteedIds fused active quota).card ≤ active.length * quota := by
  unfold guaranteedIds
  induction active using List.reverseRecOn with
  | nil => simp
  | append_singleton active attr ih =>
      rw [List.foldl_append, List.foldl_cons, List.foldl_nil, List.length_append, List.length_singleton]
      have htake : (((members fused attr).take quota).map FusedResult.itemId).toFinset.card ≤ quota := by
        refine (List.toFinset_card_le _).trans ?_
        rw [List.length_map, List.length_take]
        exact min_le_left _ _
      have hunion := Finset.card_union_le
        (active.foldl (fun ids attr => ids ∪ (((members fused attr).take quota).map FusedResult.itemId).toFinset) ∅)
        (((members fused attr).take quota).map FusedResult.itemId).toFinset
      rw [Nat.add_mul, one_mul]
      omega

theorem mem_guaranteedIds {active : List (FusedResult I T → Option ℕ)} {quota : ℕ} {i : I} :
    i ∈ guaranteedIds fused active quota ↔
      ∃ attr ∈ active, ∃ r ∈ (members fused attr).take quota, r.itemId = i := by
  unfold guaranteedIds
  induction active using List.reverseRecOn with
  | nil => simp
  | append_singleton active attr ih =>
      rw [List.foldl_append, List.foldl_cons, List.foldl_nil, Finset.mem_union, ih]
      simp only [List.mem_toFinset, List.mem_map, List.mem_append, List.mem_singleton]
      constructor
      · rintro (⟨a, ha, h⟩ | h)
        · exact ⟨a, .inl ha, h⟩
        · exact ⟨attr, .inr rfl, h⟩
      · rintro ⟨a, ha | rfl, h⟩
        · exact .inl ⟨a, ha, h⟩
        · exact .inr h

/-! ## The quotas -/

section Quota

variable {fused} {attr : FusedResult I T → Option ℕ} {quota k : ℕ} {r : FusedResult I T}

/-- The ranks of a channel are distinct. -/
def RanksDistinct (fused : List (FusedResult I T)) (attr : FusedResult I T → Option ℕ) : Prop :=
  ∀ a ∈ fused, ∀ b ∈ fused, (attr a).isSome = true → attr a = attr b → a.itemId = b.itemId

instance (fused : List (FusedResult I T)) (attr : FusedResult I T → Option ℕ) :
    Decidable (RanksDistinct fused attr) :=
  inferInstanceAs (Decidable (∀ a ∈ fused, ∀ b ∈ fused, _ → _))

/-- The items of a channel with a better rank. -/
def better (fused : List (FusedResult I T)) (attr : FusedResult I T → Option ℕ) (k : ℕ) : List (FusedResult I T) :=
  fused.filter fun x => (attr x).any fun j => decide (j < k)

omit [DecidableEq I] in
/-- **The first of the sorted members are the best ranks of the channel.** -/
theorem mem_take_members (hids : (fused.map FusedResult.itemId).Nodup) (hranks : RanksDistinct fused attr)
    (hr : r ∈ fused) (hk : attr r = some k) (hbest : (better fused attr k).length < quota) :
    r ∈ (members fused attr).take quota := by
  have hperm : (members fused attr).Perm (fused.filter fun x => (attr x).isSome) := List.mergeSort_perm _ _
  have hleast := SortBy.least_take (hids.of_map.filter _) hperm (SortBy.pairwise_mergeSort _ _) quota
  have hmem : r ∈ fused.filter fun x => (attr x).isSome := List.mem_filter.mpr ⟨hr, by rw [hk]; rfl⟩
  by_contra hout
  -- the front is then full, and all of it is better
  have hsub : (members fused attr).take quota ⊆ better fused attr k := by
    intro y hy
    obtain ⟨hyf, hyr⟩ := List.mem_filter.mp (hleast.subset hy)
    obtain ⟨j, hj⟩ := Option.isSome_iff_exists.mp hyr
    have hle := hleast.le y hy r hmem hout
    rw [hj, hk, Option.getD_some, Option.getD_some] at hle
    have hne : j ≠ k := by
      rintro rfl
      exact hout (List.inj_on_of_nodup_map hids hyf hr (hranks y hyf r hr hyr (hj.trans hk.symm)) ▸ hy)
    refine List.mem_filter.mpr ⟨hyf, ?_⟩
    rw [hj, Option.any_some]
    exact decide_eq_true (lt_of_le_of_ne hle hne)
  have hlen := (hleast.nodup.subperm hsub).length_le
  have hall : ((members fused attr).take quota).length ≠ (members fused attr).length := by
    intro h
    rw [List.length_take] at h
    have htake : (members fused attr).take quota = members fused attr := List.take_of_length_le (by omega)
    rw [htake] at hout
    exact hout (hperm.mem_iff.mpr hmem)
  have hfront := hleast.length
  rw [← hperm.length_eq] at hfront
  omega

end Quota

/-! ## The two parts -/

/-- The parts of the list that a set of ids selects and leaves. -/
theorem parts_of_ids (ids : Finset I) :
    (fused.filter fun r => r.itemId ∈ ids).Sublist fused ∧ (fused.filter fun r => r.itemId ∉ ids).Sublist fused ∧
      ((fused.filter fun r => r.itemId ∈ ids) ++ fused.filter fun r => r.itemId ∉ ids).Perm fused := by
  refine ⟨List.filter_sublist, List.filter_sublist, ?_⟩
  have h := List.filter_append_perm (fun r : FusedResult I T => decide (r.itemId ∈ ids)) fused
  simpa using h

theorem length_window {fused : List (FusedResult I T)} (hids : (fused.map FusedResult.itemId).Nodup)
    {ids : Finset I} (hsub : ids ⊆ (fused.map FusedResult.itemId).toFinset) :
    (fused.filter fun r => r.itemId ∈ ids).length = ids.card := by
  have hset : ((fused.filter fun r => r.itemId ∈ ids).map FusedResult.itemId).toFinset = ids := by
    ext i
    simp only [List.mem_toFinset, List.mem_map, List.mem_filter, decide_eq_true_eq]
    constructor
    · rintro ⟨r, ⟨-, hr⟩, rfl⟩
      exact hr
    · intro hi
      obtain ⟨r, hr, rfl⟩ := List.mem_map.mp (List.mem_toFinset.mp (hsub hi))
      exact ⟨r, ⟨hr, hi⟩, rfl⟩
  have hnodup : ((fused.filter fun r => r.itemId ∈ ids).map FusedResult.itemId).Nodup :=
    hids.sublist (List.filter_sublist.map _)
  have hcard := List.toFinset_card_of_nodup hnodup
  rw [hset, List.length_map] at hcard
  exact hcard.symm

omit [DecidableEq I] in
theorem parts_of_slices (h : 0 ≤ topN) :
    (PySeq.slice fused 0 topN, PySeq.slice fused topN fused.length) =
      (fused.take topN.toNat, fused.drop topN.toNat) := by
  rw [PySeq.slice_eq fused le_rfl h, PySeq.slice_eq fused h (by omega)]
  simp

/-- **The window and the rest** are the list in two parts, each in list order.  The window has `topN`
items, or all; under a union mode it has the best ranks of every active channel, as many as the quota of
a channel; and under another mode it is the front of the list. -/
theorem selectRerankWindow_spec (hids : (fused.map FusedResult.itemId).Nodup)
    (hranks : ∀ c ∈ channelAttrByName, RanksDistinct fused c.2) (htop : 0 ≤ topN) :
    let parts := selectRerankWindow config fused topN
    parts.1.Sublist fused ∧ parts.2.Sublist fused ∧ (parts.1 ++ parts.2).Perm fused ∧
      parts.1.length = min topN.toNat fused.length ∧
      (config.fusionMode.isUnion = true → ∀ attr ∈ activeChannels config fused, ∀ r ∈ fused, ∀ k,
        attr r = some k → (better fused attr k).length < topN.toNat / (activeChannels config fused).length →
        r ∈ parts.1) ∧
      (config.fusionMode.isUnion = false → parts.1 = fused.take topN.toNat) := by
  have hslices := parts_of_slices fused topN htop
  have hfront : (fused.take topN.toNat ++ fused.drop topN.toNat).Perm fused := by rw [List.take_append_drop]
  have hlen : (fused.take topN.toNat).length = min topN.toNat fused.length := List.length_take
  intro parts
  have hparts : parts = selectRerankWindow config fused topN := rfl
  rw [selectRerankWindow] at hparts
  cases hmode : config.fusionMode.isUnion with
  | false =>
      rw [hmode] at hparts
      simp only [Bool.false_eq_true, if_false, hslices] at hparts
      rw [hparts]
      exact ⟨List.take_sublist _ _, List.drop_sublist _ _, hfront, hlen, fun h => (Bool.false_ne_true h).elim,
        fun _ => rfl⟩
  | true =>
      rw [hmode] at hparts
      simp only [if_true] at hparts
      split at hparts
      case isTrue hnone =>
        rw [hslices] at hparts
        rw [hparts]
        refine ⟨List.take_sublist _ _, List.drop_sublist _ _, hfront, hlen, fun _ attr hattr r _ k _ hquota => ?_,
          fun h => (Bool.false_ne_true h.symm).elim⟩
        -- no channel is active, or its quota is zero
        rcases hnone with hnil | hzero
        · rw [hnil] at hattr
          cases hattr
        · rw [Int.toNat_of_nonpos hzero, Nat.zero_div] at hquota
          omega
      case isFalse hsome =>
        have hcard := card_guaranteedIds fused (activeChannels config fused)
          (topN.toNat / (activeChannels config fused).length)
        have hfits := Nat.mul_div_le topN.toNat (activeChannels config fused).length
        have hinside : guaranteedIds fused (activeChannels config fused)
            (topN.toNat / (activeChannels config fused).length) ⊆ (fused.map FusedResult.itemId).toFinset := by
          intro i hi
          obtain ⟨attr, -, r, hr, rfl⟩ := (mem_guaranteedIds fused).mp hi
          have hmem : r ∈ fused := (List.mem_filter.mp (List.mem_mergeSort.mp (List.mem_of_mem_take hr))).1
          exact List.mem_toFinset.mpr (List.mem_map_of_mem hmem)
        obtain ⟨h1, h2, h3⟩ := parts_of_ids fused (fillWindow topN.toNat (guaranteedIds fused
          (activeChannels config fused) (topN.toNat / (activeChannels config fused).length)) fused)
        rw [hparts]
        refine ⟨h1, h2, h3, ?_, fun _ attr hattr r hr k hk hbest => ?_,
          fun h => (Bool.false_ne_true h.symm).elim⟩
        · have hsub := (fillWindow_subset fused (guaranteedIds fused (activeChannels config fused)
            (topN.toNat / (activeChannels config fused).length)) (n := topN.toNat)).trans
            (Finset.union_subset hinside subset_rfl)
          rw [length_window hids hsub, card_fillWindow fused _ (by omega), Finset.union_eq_right.mpr hinside,
            List.toFinset_card_of_nodup hids, List.length_map]
        · have hdistinct : RanksDistinct fused attr := by
            obtain ⟨c, hc, rfl⟩ := List.mem_map.mp hattr
            exact hranks c (List.mem_filter.mp hc).1
          have htake := mem_take_members hids hdistinct hr hk hbest
          refine List.mem_filter.mpr ⟨hr, decide_eq_true ?_⟩
          exact subset_fillWindow fused _ ((mem_guaranteedIds fused).mpr ⟨attr, hattr, r, htake, rfl⟩)

/-- Four items after a boost: the best of the graph channel has fallen to the last place. -/
def boosted : List (FusedResult ℕ Unit) :=
  [⟨1, (), 4, some 1, none, none, none, none, none⟩, ⟨2, (), 3, some 2, some 2, none, none, none, none⟩,
    ⟨3, (), 2, some 3, none, none, none, none, none⟩, ⟨4, (), 1, none, some 1, none, none, none, none⟩]

theorem selectRerankWindow_boosted :
    let parts := selectRerankWindow ⟨.unionBestRank, ["vector", "graph", "bm25"]⟩ boosted 2
    (parts.1 ++ parts.2).Perm boosted ∧ parts.1.length = 2 ∧
      ⟨4, (), 1, none, some 1, none, none, none, none⟩ ∈ parts.1 := by
  obtain ⟨-, -, hperm, hlen, hquota, -⟩ := selectRerankWindow_spec
    ⟨.unionBestRank, ["vector", "graph", "bm25"]⟩ boosted 2 (by decide) (by decide) (by decide)
  refine ⟨hperm, hlen, hquota rfl FusedResult.graphRank ?_ _ ?_ 1 rfl (by decide)⟩
  · exact List.mem_cons_of_mem _ List.mem_cons_self
  · exact List.mem_cons_of_mem _ (List.mem_cons_of_mem _ (List.mem_cons_of_mem _ List.mem_cons_self))

end RerankWindow

end Khora
