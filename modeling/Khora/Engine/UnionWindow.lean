import Khora.Engine.RerankWindow

/-!
# From the union fusers to the reranker

Under a union mode, boosts change the scores and the order of the fused list before `_select_rerank_window` slices it.

* `union_reranked` — the first results of every enabled channel reach the reranker all the same.
-/

namespace Khora

namespace UnionWindow

open UnionFusion RerankWindow

variable {I T : Type} [DecidableEq I]

section Fusers

variable {S : Type} [LinearOrder S] (str : I → S) (channels : Channels I T) (weights : OrderedDict String ℚ)
  (rrfK : ℕ) (limit : Option ℤ)

/-- `mnz[item_id]` -/
def mnz (ranks : OrderedDict String ℕ) : ℚ :=
  ranks.size * (ranks.items.map fun e => (weights.get? e.1).getD 0 / (rrfK + e.2)).sum

/-- `sort_key` of `union_mnz_fusion` -/
def mnzKey (e : I × UnionCandidate T UnionHit) : ℚ ×ₗ ℕ ×ₗ ℤ ×ₗ ℕ ×ₗ S :=
  toLex (-mnz weights rrfK e.2.ranks, toLex (bestRank e.2.ranks, toLex (-(e.2.ranks.size : ℤ),
    toLex (priority channels (bestChannel (priority channels) e.2.ranks), str e.1))))

/-- `union_mnz_fusion` -/
def unionMnzFusion : List (FusedResult I T) :=
  ((unionChannelRanks channels limit).items.insertionSort fun a b =>
    mnzKey str channels weights rrfK a ≤ mnzKey str channels weights rrfK b).map fun e =>
      buildUnionResult (mnz weights rrfK e.2.ranks) e

/-- The union modes of `_fuse_results`. -/
def unionFused (mode : FusionMode) : List (FusedResult I T) :=
  if mode = .unionMnz then unionMnzFusion str channels weights rrfK limit
  else unionBestRankFusion str channels rrfK limit

end Fusers

/-- What boosts and a floor leave of a fused list: results of it with other scores, in any order. -/
structure Rescored (exit fused : List (FusedResult I T)) : Prop where
  ids : (fused.map FusedResult.itemId).Nodup
  results : ∀ r ∈ fused, ∃ r' ∈ exit, r = { r' with rrfScore := r.rrfScore }

section Window

variable {S : Type} [LinearOrder S] {str : I → S} {channels : Channels I T} {weights : OrderedDict String ℚ}
  {rrfK : ℕ} {limit : Option ℤ} {fused : List (FusedResult I T)}

/-- What is left of a fused list are candidates with their ranks. -/
def Candidates (channels : Channels I T) (limit : Option ℤ) (fused : List (FusedResult I T)) : Prop :=
  ∀ r ∈ fused, ∃ e ∈ (unionChannelRanks channels limit).items, r = buildUnionResult r.rrfScore e

theorem Rescored.candidates {mode : FusionMode}
    (h : Rescored (unionFused str channels weights rrfK limit mode) fused) : Candidates channels limit fused := by
  intro r hr
  obtain ⟨r', hr', hrescored⟩ := h.results r hr
  rw [unionFused] at hr'
  split at hr'
  · obtain ⟨e, he, rfl⟩ := List.mem_map.mp hr'
    exact ⟨e, (List.mem_insertionSort _).mp he, hrescored⟩
  · obtain ⟨p, hp, rfl⟩ := List.mem_map.mp hr'
    exact ⟨p.1, (perm_sorted _).mem_iff.mp (List.fst_mem_of_mem_zipIdx hp), hrescored⟩

omit [DecidableEq I] in
theorem attr_build {c : String × (FusedResult I T → Option ℕ)} (hc : c ∈ channelAttrByName) (score : ℚ)
    (e : I × UnionCandidate T UnionHit) :
    c.2 (buildUnionResult score e) = (e.2.hits.get? c.1).map UnionHit.rank := by
  simp only [channelAttrByName, List.mem_cons, List.not_mem_nil, or_false] at hc
  rcases hc with rfl | rfl | rfl <;> rfl

variable {ch : Channel I T} {c : String × (FusedResult I T → Option ℕ)}

/-- A rank is a place in the channel. -/
theorem place_of_attr (h : Candidates channels limit fused) (hch : ch ∈ channels.list) (hc : c ∈ channelAttrByName)
    (hname : c.1 = ch.name) {r : FusedResult I T} (hr : r ∈ fused) {k : ℕ} (hk : c.2 r = some k) :
    0 < k ∧ (truncate limit ch.results)[k - 1]?.map Prod.fst = some r.itemId := by
  obtain ⟨e, he, hr⟩ := h r hr
  rw [hr, attr_build hc] at hk
  obtain ⟨hit, hhit, rfl⟩ := Option.map_eq_some_iff.mp hk
  obtain ⟨hpos, ch', hch', hname', hplace⟩ := (mem_unionChannelRanks he).2 c.1 hit hhit
  obtain rfl := List.inj_on_of_nodup_map channels.names hch' hch (hname'.trans hname)
  exact ⟨hpos, hplace.trans (congrArg _ (congrArg FusedResult.itemId hr).symm)⟩

theorem ranksDistinct (h : Candidates channels limit fused) (hch : ch ∈ channels.list) (hc : c ∈ channelAttrByName)
    (hname : c.1 = ch.name) : RanksDistinct fused c.2 := by
  intro a ha b hb hsome heq
  obtain ⟨k, hk⟩ := Option.isSome_iff_exists.mp hsome
  have hplace := (place_of_attr h hch hc hname ha hk).2
  exact Option.some.inj (hplace.symm.trans (place_of_attr h hch hc hname hb (heq ▸ hk)).2)

/-- At most `k` results have a rank up to `k`. -/
theorem length_better (h : Candidates channels limit fused) (hids : (fused.map FusedResult.itemId).Nodup)
    (hch : ch ∈ channels.list) (hc : c ∈ channelAttrByName) (hname : c.1 = ch.name) (k : ℕ) :
    (better fused c.2 (k + 1)).length ≤ k := by
  have hsub : (better fused c.2 (k + 1)).map FusedResult.itemId ⊆
      ((truncate limit ch.results).map Prod.fst).take k := by
    intro id hid
    obtain ⟨x, hx, rfl⟩ := List.mem_map.mp hid
    obtain ⟨hx, hany⟩ := List.mem_filter.mp hx
    obtain ⟨j, hj, hjk⟩ := (Option.any_eq_true _ _).mp hany
    obtain ⟨hpos, hplace⟩ := place_of_attr h hch hc hname hx hj
    have hlt : j - 1 < k := by
      have := of_decide_eq_true hjk
      omega
    exact List.mem_of_getElem? (by rw [List.getElem?_take_of_lt hlt, List.getElem?_map, hplace])
  have hlength := ((hids.sublist (List.filter_sublist.map _)).subperm hsub).length_le
  rw [List.length_map] at hlength
  exact hlength.trans (List.length_take_le _ _)

/-- **The first results of an enabled channel reach the reranker**, whatever a boost does to the scores and the
order, unless they were taken out before. -/
theorem union_reranked {config : RetrieverConfig} (hmode : config.fusionMode.isUnion = true)
    (hfused : Rescored (unionFused str channels weights rrfK limit config.fusionMode) fused) {topN : ℤ}
    (hch : ch ∈ channels.list) (hname : ch.name ∈ ["vector", "graph", "bm25"])
    (henabled : ch.name ∈ config.unionRankChannels) {i : ℕ} {id : I}
    (hplace : (truncate limit ch.results)[i]?.map Prod.fst = some id)
    (hquota : i < topN.toNat / (activeChannels config fused).length) (hkept : id ∈ fused.map FusedResult.itemId) :
    id ∈ (selectRerankWindow config fused topN).1.map FusedResult.itemId := by
  have hcandidates := hfused.candidates
  obtain ⟨c, hc, hcname⟩ : ∃ c ∈ (channelAttrByName : List (String × (FusedResult I T → Option ℕ))),
      c.1 = ch.name := List.mem_map.mp hname
  obtain ⟨e, he, hid, hit, hhit, hrank⟩ := exists_candidate hch hplace
  obtain ⟨r, hr, hrid⟩ := List.mem_map.mp hkept
  -- the result that is left of it has its rank
  have hk : c.2 r = some (i + 1) := by
    obtain ⟨e', he', hr'⟩ := hcandidates r hr
    have hid' : e'.1 = r.itemId := (congrArg FusedResult.itemId hr').symm
    obtain rfl := List.inj_on_of_nodup_map (OrderedDict.nodup _) he' he (hid'.trans (hrid.trans hid.symm))
    rw [hr', attr_build hc, hcname, hhit, Option.map_some, hrank]
  have hactive : c.2 ∈ activeChannels config fused := by
    refine List.mem_map_of_mem (List.mem_filter.mpr ⟨hc, decide_eq_true ⟨?_, r, hr, by rw [hk]; rfl⟩⟩)
    rwa [hcname]
  have htake := mem_take_members hfused.ids (ranksDistinct hcandidates hch hc hcname) hr hk
    ((Nat.lt_succ_of_le (length_better hcandidates hfused.ids hch hc hcname i)).trans_le hquota)
  have htop : ¬ (activeChannels config fused = [] ∨ topN ≤ 0) := by
    rintro (hnil | hzero)
    · rw [hnil] at hactive
      cases hactive
    · rw [Int.toNat_of_nonpos hzero, Nat.zero_div] at hquota
      omega
  rw [selectRerankWindow, if_pos hmode]
  simp only [if_neg htop]
  refine List.mem_map.mpr ⟨r, List.mem_filter.mpr ⟨hr, decide_eq_true ?_⟩, hrid⟩
  exact subset_fillWindow fused _ ((mem_guaranteedIds fused).mpr ⟨c.2, hactive, r, htake, rfl⟩)

/-- Two channels with one result in common, fused under `union_mnz`. -/
def twoChannels : Channels ℕ Unit :=
  ⟨[⟨"vector", [(1, 3, ()), (2, 2, ())]⟩, ⟨"graph", [(1, 5, ()), (3, 4, ())]⟩], by decide, by decide⟩

def bothEnabled : RetrieverConfig := ⟨.unionMnz, ["vector", "graph"]⟩

def fusedTwo : List (FusedResult ℕ Unit) := unionFused id twoChannels OrderedDict.empty 60 none .unionMnz

theorem union_reranked_twoChannels :
    3 ∈ (selectRerankWindow bothEnabled fusedTwo 4).1.map FusedResult.itemId :=
  union_reranked rfl (show Rescored (unionFused id twoChannels _ 60 none bothEnabled.fusionMode) fusedTwo from
      ⟨by decide +kernel, fun r hr => ⟨r, hr, rfl⟩⟩)
    (List.mem_cons_of_mem _ List.mem_cons_self) (by decide) (by decide) (i := 1) rfl (by decide +kernel)
    (by decide +kernel)

end Window

end UnionWindow

end Khora
