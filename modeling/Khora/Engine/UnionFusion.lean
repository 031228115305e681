import Khora.Lib.OrderedDict
import Mathlib.Algebra.Order.Field.Rat
import Mathlib.Data.List.Lex
import Mathlib.Data.List.MinMax
import Mathlib.Data.List.Sort
import Mathlib.Data.Prod.Lex
import Mathlib.Tactic.Linarith
import Mathlib.Tactic.Positivity

/-!
# The union of ranked channels

`union_best_rank_fusion` merges the lists of several channels into one.  Items are ordered by their best
rank in a channel, by the number of channels that have them, by the priority of the best channel, and
then by score and id.

* `unionBestRankFusion_exposure` — every item once, the first `m` of each channel among the first
  `m * channels`, and an order that ranks alone decide.
-/

namespace Khora

/-- A channel's name and its results, best first: id, score and item. -/
structure Channel (I T : Type) where
  name : String
  results : List (I × ℚ × T)

/-- Channels by priority: their names are distinct, and the ids of each. -/
structure Channels (I T : Type) where
  list : List (Channel I T)
  names : (list.map Channel.name).Nodup
  ids : ∀ c ∈ list, (c.results.map Prod.fst).Nodup

/-- `_min_max_normalize` -/
def minMaxNormalize : List ℚ → List ℚ
  | [] => []
  | s :: scores =>
    let minScore := scores.foldl min s
    let maxScore := scores.foldl max s
    if maxScore = minScore then (s :: scores).map fun _ => 1
    else (s :: scores).map fun x => (x - minScore) / (maxScore - minScore)

structure UnionHit where
  rank : ℕ
  score : ℚ
  norm : ℚ

/-- What the dicts of `_union_channel_ranks` have under an id; `X` is what is kept of a hit. -/
structure UnionCandidate (T X : Type) where
  item : T
  hits : OrderedDict String X

/-- The ranks of a candidate, by channel. -/
def UnionCandidate.ranks {T : Type} (c : UnionCandidate T UnionHit) : OrderedDict String ℕ :=
  c.hits.mapVals UnionHit.rank

/-- A result on its way into the dicts. -/
structure UnionEntry (I T X : Type) where
  name : String
  id : I
  item : T
  hit : X

structure FusedResult (I T : Type) where
  itemId : I
  item : T
  rrfScore : ℚ
  vectorRank : Option ℕ
  graphRank : Option ℕ
  vectorScore : Option ℚ
  graphScore : Option ℚ
  bm25Rank : Option ℕ
  bm25Score : Option ℚ

namespace UnionFusion

variable {I T X Y : Type}

/-- `results[:limit]` -/
def truncate {A : Type} (limit : Option ℤ) (results : List A) : List A :=
  match limit with
  | none => results
  | some k => if 0 ≤ k then results.take k.toNat else results.take (results.length - (-k).toNat)

/-- The results of a channel with their ranks and normalized scores. -/
def channelEntries (limit : Option ℤ) (c : Channel I T) : List (UnionEntry I T UnionHit) :=
  let results := truncate limit c.results
  let normalized := minMaxNormalize (results.map fun r => r.2.1)
  (results.zip normalized).zipIdx.map fun p =>
    ⟨c.name, p.1.1.1, p.1.1.2.2, ⟨p.2 + 1, p.1.1.2.1, p.1.2⟩⟩

section Collect

variable [DecidableEq I]

/-- `setdefault(item_id, ...)` and the hit under the name of its channel -/
def record (found : OrderedDict I (UnionCandidate T X)) (e : UnionEntry I T X) :
    OrderedDict I (UnionCandidate T X) :=
  match found.get? e.id with
  | none => found.set e.id ⟨e.item, OrderedDict.empty.set e.name e.hit⟩
  | some candidate => found.set e.id ⟨candidate.item, candidate.hits.set e.name e.hit⟩

def collect (entries : List (UnionEntry I T X)) : OrderedDict I (UnionCandidate T X) :=
  entries.foldl record OrderedDict.empty

/-- `_union_channel_ranks` -/
def unionChannelRanks (channels : Channels I T) (limit : Option ℤ) :
    OrderedDict I (UnionCandidate T UnionHit) :=
  collect (channels.list.flatMap (channelEntries limit))

end Collect

/-- `min(item_ranks.values())` -/
def bestRank (ranks : OrderedDict String ℕ) : ℕ := (ranks.items.map Prod.snd).min?.getD 0

/-- `_best_channel` -/
def bestChannel (priority : String → ℕ) (ranks : OrderedDict String ℕ) : String :=
  (((ranks.items.filter fun e => decide (e.2 = bestRank ranks)).map Prod.fst).argmin priority).getD ""

/-- The position of a name among the channels. -/
def priority (channels : Channels I T) (name : String) : ℕ :=
  (channels.list.map Channel.name).idxOf name

/-- What of the sort key the ranks decide. -/
def rankKey (channels : Channels I T) (ranks : OrderedDict String ℕ) : ℕ ×ₗ ℤ ×ₗ ℕ :=
  toLex (bestRank ranks, toLex (-(ranks.size : ℤ),
    priority channels (bestChannel (priority channels) ranks)))

section Sorting

variable {S : Type} [LinearOrder S] (str : I → S)

/-- `sort_key` -/
def sortKey (channels : Channels I T) (e : I × UnionCandidate T UnionHit) :
    ℕ ×ₗ ℤ ×ₗ ℕ ×ₗ ℚ ×ₗ S :=
  let best := bestChannel (priority channels) e.2.ranks
  toLex (bestRank e.2.ranks, toLex (-(e.2.ranks.size : ℤ), toLex (priority channels best,
    toLex (-((e.2.hits.get? best).map UnionHit.norm).getD 0, str e.1))))

/-- `sorted(items, key=sort_key)` -/
def sorted (channels : Channels I T) (items : List (I × UnionCandidate T UnionHit)) :
    List (I × UnionCandidate T UnionHit) :=
  items.insertionSort fun a b => sortKey str channels a ≤ sortKey str channels b

/-- `_build_union_result` -/
def buildUnionResult (rrfScore : ℚ) (e : I × UnionCandidate T UnionHit) : FusedResult I T where
  itemId := e.1
  item := e.2.item
  rrfScore := rrfScore
  vectorRank := (e.2.hits.get? "vector").map UnionHit.rank
  graphRank := (e.2.hits.get? "graph").map UnionHit.rank
  vectorScore := (e.2.hits.get? "vector").map UnionHit.score
  graphScore := (e.2.hits.get? "graph").map UnionHit.score
  bm25Rank := (e.2.hits.get? "bm25").map UnionHit.rank
  bm25Score := (e.2.hits.get? "bm25").map UnionHit.score

/-- `union_best_rank_fusion` -/
def unionBestRankFusion [DecidableEq I] (channels : Channels I T) (rrfK : ℕ) (limit : Option ℤ) :
    List (FusedResult I T) :=
  ((sorted str channels (unionChannelRanks channels limit).items).zipIdx 1).map fun p =>
    buildUnionResult (1 / ((rrfK : ℚ) + (p.2 : ℚ))) p.1

end Sorting

/-! ## What is collected -/

section Entries

variable {limit : Option ℤ} {c : Channel I T}

theorem length_minMaxNormalize (scores : List ℚ) : (minMaxNormalize scores).length = scores.length := by
  cases scores with
  | nil => rfl
  | cons s scores =>
    simp only [minMaxNormalize]
    by_cases h : scores.foldl max s = scores.foldl min s
    · rw [if_pos h, List.length_map]
    · rw [if_neg h, List.length_map]

theorem truncate_eq_take {A : Type} (limit : Option ℤ) (results : List A) :
    ∃ n, truncate limit results = results.take n ∧
      ∀ m : ℕ, (∀ l ∈ limit, (m : ℤ) ≤ l) → min m results.length ≤ n := by
  cases limit with
  | none => exact ⟨results.length, (List.take_length ..).symm, fun m _ => Nat.min_le_right _ _⟩
  | some k =>
    by_cases hk : 0 ≤ k
    · refine ⟨k.toNat, if_pos hk, fun m hm => ?_⟩
      have hmk := hm k rfl
      omega
    · refine ⟨results.length - (-k).toNat, if_neg hk, fun m hm => ?_⟩
      have hmk := hm k rfl
      omega

/-- The entries of a channel are its results with their places. -/
theorem mem_channelEntries {e : UnionEntry I T UnionHit} (h : e ∈ channelEntries limit c) :
    ∃ r, (truncate limit c.results)[e.hit.rank - 1]? = some r ∧ 0 < e.hit.rank ∧ e.name = c.name ∧
      e.id = r.1 ∧ e.item = r.2.2 ∧ e.hit.score = r.2.1 ∧
      (minMaxNormalize ((truncate limit c.results).map fun r => r.2.1))[e.hit.rank - 1]? =
        some e.hit.norm := by
  obtain ⟨p, hp, rfl⟩ := List.mem_map.mp h
  have hget := List.mem_zipIdx_iff_getElem?.mp hp
  rw [List.getElem?_zip_eq_some] at hget
  exact ⟨p.1.1, hget.1, Nat.succ_pos _, rfl, rfl, rfl, rfl, hget.2⟩

theorem exists_entry {i : ℕ} {r : I × ℚ × T} (h : (truncate limit c.results)[i]? = some r) :
    ∃ e ∈ channelEntries limit c, e.name = c.name ∧ e.id = r.1 ∧ e.hit.rank = i + 1 := by
  have hlt := (List.getElem?_eq_some_iff.mp h).1
  have hlength : i < (minMaxNormalize ((truncate limit c.results).map fun r => r.2.1)).length := by
    rw [length_minMaxNormalize, List.length_map]
    exact hlt
  have hnorm := List.getElem?_eq_getElem hlength
  generalize (minMaxNormalize ((truncate limit c.results).map fun r => r.2.1))[i] = norm at hnorm
  refine ⟨⟨c.name, r.1, r.2.2, ⟨i + 1, r.2.1, norm⟩⟩, ?_, rfl, rfl, rfl⟩
  apply List.mem_map.mpr
  refine ⟨((r, norm), i), ?_, rfl⟩
  rw [List.mem_zipIdx_iff_getElem?, List.getElem?_zip_eq_some]
  exact ⟨h, hnorm⟩

end Entries

section Hits

variable [DecidableEq I]

theorem collect_concat (entries : List (UnionEntry I T X)) (e : UnionEntry I T X) :
    collect (entries ++ [e]) = record (collect entries) e := List.foldl_concat ..

/-- The hit of an item in a channel. -/
def hitOf (found : OrderedDict I (UnionCandidate T X)) (id : I) (name : String) : Option X :=
  (found.get? id).bind fun c => c.hits.get? name

theorem get?_record (found : OrderedDict I (UnionCandidate T X)) (e : UnionEntry I T X) (id : I) :
    ((record found e).get? id).isSome = (decide (id = e.id) || (found.get? id).isSome) := by
  unfold record
  by_cases hid : id = e.id
  · rw [decide_eq_true hid, Bool.true_or]
    cases found.get? e.id <;> simp only [OrderedDict.get?_set, if_pos hid, Option.isSome_some]
  · rw [decide_eq_false hid, Bool.false_or]
    cases found.get? e.id <;> simp only [OrderedDict.get?_set, if_neg hid]

theorem hitOf_record (found : OrderedDict I (UnionCandidate T X)) (e : UnionEntry I T X) (id : I)
    (name : String) :
    hitOf (record found e) id name =
      if id = e.id ∧ name = e.name then some e.hit else hitOf found id name := by
  unfold hitOf record
  by_cases hid : id = e.id
  · subst hid
    cases hfound : found.get? e.id with
    | none =>
      simp only [OrderedDict.get?_set, ↓reduceIte, Option.bind_some, Option.bind_none,
        OrderedDict.get?_empty, true_and]
    | some c => simp only [OrderedDict.get?_set, ↓reduceIte, Option.bind_some, true_and]
  · rw [if_neg fun h => hid h.1]
    cases found.get? e.id <;> simp only [OrderedDict.get?_set, if_neg hid]

/-- An item is collected with a hit, and hits are of entries. -/
theorem mem_collect {entries : List (UnionEntry I T X)} {id : I} {c : UnionCandidate T X}
    (h : (collect entries).get? id = some c) :
    (∃ e ∈ entries, e.id = id) ∧
      ∀ name hit, c.hits.get? name = some hit →
        ∃ e ∈ entries, e.id = id ∧ e.name = name ∧ e.hit = hit := by
  have hhits : ∀ entries : List (UnionEntry I T X), ∀ id name hit,
      hitOf (collect entries) id name = some hit →
        ∃ e ∈ entries, e.id = id ∧ e.name = name ∧ e.hit = hit := by
    intro entries
    induction entries using List.reverseRecOn with
    | nil => exact fun _ _ _ h => absurd h.symm (Option.some_ne_none _)
    | append_singleton entries e ih =>
      intro id name hit h
      rw [collect_concat, hitOf_record] at h
      by_cases hpair : id = e.id ∧ name = e.name
      · rw [if_pos hpair, Option.some.injEq] at h
        exact ⟨e, List.mem_concat_self, hpair.1.symm, hpair.2.symm, h⟩
      · rw [if_neg hpair] at h
        obtain ⟨e', he', hrest⟩ := ih id name hit h
        exact ⟨e', List.mem_append_left _ he', hrest⟩
  constructor
  · have hsome : ((collect entries).get? id).isSome = true := by rw [h, Option.isSome_some]
    clear h
    induction entries using List.reverseRecOn with
    | nil => exact absurd hsome Bool.false_ne_true
    | append_singleton entries e ih =>
      rw [collect_concat, get?_record] at hsome
      by_cases hid : id = e.id
      · exact ⟨e, List.mem_concat_self, hid.symm⟩
      · rw [decide_eq_false hid, Bool.false_or] at hsome
        obtain ⟨e', he', hrest⟩ := ih hsome
        exact ⟨e', List.mem_append_left _ he', hrest⟩
  · intro name hit hhit
    apply hhits entries id name hit
    rw [hitOf, h]
    exact hhit

/-- Every entry is under its id, with a hit in its channel. -/
theorem exists_hit {entries : List (UnionEntry I T X)} {e : UnionEntry I T X} (h : e ∈ entries) :
    ∃ c, (collect entries).get? e.id = some c ∧ ∃ e' ∈ entries, e'.id = e.id ∧ e'.name = e.name ∧
      c.hits.get? e.name = some e'.hit := by
  have hhit : ∃ e' ∈ entries, e'.id = e.id ∧ e'.name = e.name ∧
      hitOf (collect entries) e.id e.name = some e'.hit := by
    induction entries using List.reverseRecOn with
    | nil => exact absurd h List.not_mem_nil
    | append_singleton entries last ih =>
      rw [collect_concat, hitOf_record]
      by_cases hpair : e.id = last.id ∧ e.name = last.name
      · rw [if_pos hpair]
        exact ⟨last, List.mem_concat_self, hpair.1.symm, hpair.2.symm, rfl⟩
      · rw [if_neg hpair]
        rcases List.mem_append.mp h with hin | hlast
        · obtain ⟨e', he', hrest⟩ := ih hin
          exact ⟨e', List.mem_append_left _ he', hrest⟩
        · rw [List.mem_singleton.mp hlast] at hpair
          exact absurd ⟨rfl, rfl⟩ hpair
  obtain ⟨e', he', hid, hname, hget⟩ := hhit
  unfold hitOf at hget
  obtain ⟨c, hc, hget⟩ := Option.bind_eq_some_iff.mp hget
  exact ⟨c, hc, e', he', hid, hname, hget⟩

end Hits

/-! ## The best rank and its channel -/

section Best

variable {ranks : OrderedDict String ℕ} {name : String} {r : ℕ}

theorem min?_ranks (h : ranks.get? name = some r) :
    (ranks.items.map Prod.snd).min? = some (bestRank ranks) := by
  have hmem : r ∈ ranks.items.map Prod.snd :=
    List.mem_map.mpr ⟨(name, r), OrderedDict.get?_eq_some_iff.mp h, rfl⟩
  unfold bestRank
  cases hmin : (ranks.items.map Prod.snd).min? with
  | none =>
    rw [List.min?_eq_none_iff.mp hmin] at hmem
    exact absurd hmem List.not_mem_nil
  | some b => rfl

theorem bestRank_le (h : ranks.get? name = some r) : bestRank ranks ≤ r :=
  (List.min?_eq_some_iff.mp (min?_ranks h)).2 r
    (List.mem_map.mpr ⟨(name, r), OrderedDict.get?_eq_some_iff.mp h, rfl⟩)

/-- The best channel has the item at its best rank. -/
theorem get?_bestChannel (priority : String → ℕ) (h : ranks.get? name = some r) :
    ranks.get? (bestChannel priority ranks) = some (bestRank ranks) := by
  obtain ⟨e, he, hbest⟩ := List.mem_map.mp (List.min?_eq_some_iff.mp (min?_ranks h)).1
  have hnames : e.1 ∈ (ranks.items.filter fun e => decide (e.2 = bestRank ranks)).map Prod.fst :=
    List.mem_map.mpr ⟨e, List.mem_filter.mpr ⟨he, decide_eq_true hbest⟩, rfl⟩
  unfold bestChannel
  cases hmin : List.argmin priority
      ((ranks.items.filter fun e => decide (e.2 = bestRank ranks)).map Prod.fst) with
  | none =>
    rw [List.argmin_eq_none.mp hmin] at hnames
    exact absurd hnames List.not_mem_nil
  | some best =>
    obtain ⟨e', he', rfl⟩ := List.mem_map.mp (List.argmin_mem hmin)
    obtain ⟨hmem, hrank⟩ := List.mem_filter.mp he'
    rw [Option.getD_some, OrderedDict.get?_eq_some_iff, ← of_decide_eq_true hrank]
    exact hmem

end Best

section Candidates

variable [DecidableEq I] {channels : Channels I T} {limit : Option ℤ}

/-- A hit is a place in a channel. -/
theorem mem_unionChannelRanks {e : I × UnionCandidate T UnionHit}
    (h : e ∈ (unionChannelRanks channels limit).items) :
    (∃ name hit, e.2.hits.get? name = some hit) ∧
      ∀ name hit, e.2.hits.get? name = some hit → 0 < hit.rank ∧ ∃ c ∈ channels.list, c.name = name ∧
        ((truncate limit c.results)[hit.rank - 1]?.map Prod.fst) = some e.1 := by
  have hget := OrderedDict.get?_eq_some_iff.mpr h
  obtain ⟨⟨entry, hentry, hid⟩, hhits⟩ := mem_collect hget
  constructor
  · obtain ⟨c, hc, e', _, _, _, hhit⟩ := exists_hit hentry
    rw [hid] at hc
    obtain rfl : c = e.2 := Option.some.inj (hc.symm.trans hget)
    exact ⟨entry.name, e'.hit, hhit⟩
  · intro name hit hhit
    obtain ⟨e', he', hid', hname, rfl⟩ := hhits name hit hhit
    obtain ⟨c, hc, he'⟩ := List.mem_flatMap.mp he'
    obtain ⟨r, hr, hpos, hcname, hrid, _⟩ := mem_channelEntries he'
    refine ⟨hpos, c, hc, hcname.symm.trans hname, ?_⟩
    rw [hr, Option.map_some, ← hrid, hid']

/-- The results of a channel have hits there. -/
theorem exists_candidate {c : Channel I T} (hc : c ∈ channels.list) {i : ℕ} {id : I}
    (h : (truncate limit c.results)[i]?.map Prod.fst = some id) :
    ∃ e ∈ (unionChannelRanks channels limit).items, e.1 = id ∧
      ∃ hit, e.2.hits.get? c.name = some hit ∧ hit.rank = i + 1 := by
  obtain ⟨r, hr, rfl⟩ := Option.map_eq_some_iff.mp h
  obtain ⟨entry, hentry, hname, hid, hrank⟩ := exists_entry hr
  have hentry' := List.mem_flatMap.mpr ⟨c, hc, hentry⟩
  obtain ⟨candidate, hget, e', he', hid', hname', hhit⟩ := exists_hit hentry'
  have hitem := OrderedDict.get?_eq_some_iff.mp hget
  refine ⟨(entry.id, candidate), hitem, hid, e'.hit, ?_, ?_⟩
  · rw [← hname]
    exact hhit
  · -- the entries of an item in a channel are one place, since its ids are distinct
    obtain ⟨hpos, c', hc', hname'', hplace⟩ := (mem_unionChannelRanks hitem).2 entry.name e'.hit hhit
    obtain rfl : c' = c :=
      List.inj_on_of_nodup_map channels.names hc' hc (hname''.trans hname)
    have hn : ((truncate limit c'.results).map Prod.fst).Nodup := by
      obtain ⟨n, hn, _⟩ := truncate_eq_take limit c'.results
      rw [hn]
      exact (channels.ids c' hc').sublist ((List.take_sublist n _).map _)
    rw [← List.getElem?_map] at hplace h
    rw [hid] at hplace
    have hlt := (List.getElem?_eq_some_iff.mp h).1
    have heq : i = e'.hit.rank - 1 := (List.getElem?_inj hlt hn).mp (h.trans hplace.symm)
    omega

/-- **The place of a candidate** in its best channel. -/
theorem best_place {e : I × UnionCandidate T UnionHit}
    (h : e ∈ (unionChannelRanks channels limit).items) :
    0 < bestRank e.2.ranks ∧ ∃ c ∈ channels.list,
      c.name = bestChannel (priority channels) e.2.ranks ∧
      (truncate limit c.results)[bestRank e.2.ranks - 1]?.map Prod.fst = some e.1 := by
  obtain ⟨⟨name, hit, hhit⟩, hplaces⟩ := mem_unionChannelRanks h
  have hrank : e.2.ranks.get? name = some hit.rank := by
    rw [UnionCandidate.ranks, OrderedDict.get?_mapVals, hhit, Option.map_some]
  have hbest := get?_bestChannel (priority channels) hrank
  conv at hbest => lhs; rw [UnionCandidate.ranks]
  rw [OrderedDict.get?_mapVals] at hbest
  obtain ⟨best, hhit', hbest⟩ := Option.map_eq_some_iff.mp hbest
  rw [← hbest]
  exact hplaces _ best hhit'

/-- **The ranks tell the candidates apart.** -/
theorem eq_of_rankKey_eq {e e' : I × UnionCandidate T UnionHit}
    (h : e ∈ (unionChannelRanks channels limit).items)
    (h' : e' ∈ (unionChannelRanks channels limit).items)
    (hkey : rankKey channels e.2.ranks = rankKey channels e'.2.ranks) : e = e' := by
  obtain ⟨_, c, hc, hname, hplace⟩ := best_place h
  obtain ⟨_, c', hc', hname', hplace'⟩ := best_place h'
  have hrank : bestRank e.2.ranks = bestRank e'.2.ranks := congrArg (fun k => (ofLex k).1) hkey
  have hpriority : priority channels c.name = priority channels c'.name := by
    rw [hname, hname']
    exact congrArg (fun k => (ofLex (ofLex k).2).2) hkey
  have hcc : c.name = c'.name := (List.idxOf_inj (List.mem_map_of_mem hc)).mp hpriority
  obtain rfl : c = c' := List.inj_on_of_nodup_map channels.names hc hc' hcc
  rw [hrank] at hplace
  have hid : e.1 = e'.1 := Option.some.inj (hplace.symm.trans hplace')
  exact List.inj_on_of_nodup_map (unionChannelRanks channels limit).nodup h h' hid

end Candidates

/-! ## The order -/

section Order

variable {S : Type} [LinearOrder S] {str : I → S} {channels : Channels I T} {limit : Option ℤ}

theorem perm_sorted (items : List (I × UnionCandidate T UnionHit)) :
    (sorted str channels items).Perm items := List.perm_insertionSort _ items

theorem rankKey_le_of_sortKey_le {a b : I × UnionCandidate T UnionHit}
    (h : sortKey str channels a ≤ sortKey str channels b) :
    rankKey channels a.2.ranks ≤ rankKey channels b.2.ranks := by
  unfold sortKey at h
  unfold rankKey
  rw [Prod.Lex.toLex_le_toLex] at h ⊢
  refine h.imp_right fun hrank => ⟨hrank.1, ?_⟩
  have hcount := hrank.2
  rw [Prod.Lex.toLex_le_toLex] at hcount ⊢
  refine hcount.imp_right fun hchannel => ⟨hchannel.1, ?_⟩
  have hpriority := hchannel.2
  rw [Prod.Lex.toLex_le_toLex] at hpriority
  rcases hpriority with hlt | heq
  · exact Nat.le_of_lt hlt
  · exact Nat.le_of_eq heq.1

variable [DecidableEq I]

/-- **Ranks alone decide the order**, in whatever order the candidates are listed. -/
theorem pairwise_sorted {items : List (I × UnionCandidate T UnionHit)}
    (h : items.Perm (unionChannelRanks channels limit).items) :
    (sorted str channels items).Pairwise fun a b =>
      rankKey channels a.2.ranks < rankKey channels b.2.ranks := by
  have hle : (sorted str channels items).Pairwise fun a b =>
      sortKey str channels a ≤ sortKey str channels b := List.pairwise_insertionSort _ items
  have hnodup : (sorted str channels items).Nodup :=
    ((perm_sorted items).trans h).nodup_iff.mpr (List.Nodup.of_map Prod.fst (OrderedDict.nodup _))
  refine (hle.and hnodup).imp_of_mem ?_
  rintro a b ha hb ⟨hab, hne⟩
  have ha := ((perm_sorted items).trans h).mem_iff.mp ha
  have hb := ((perm_sorted items).trans h).mem_iff.mp hb
  exact lt_of_le_of_ne (rankKey_le_of_sortKey_le hab) fun heq => hne (eq_of_rankKey_eq ha hb heq)

theorem sorted_perm {items : List (I × UnionCandidate T UnionHit)}
    (h : items.Perm (unionChannelRanks channels limit).items) :
    sorted str channels items = sorted str channels (unionChannelRanks channels limit).items := by
  apply List.Perm.eq_of_pairwise _ (pairwise_sorted h) (pairwise_sorted (List.Perm.refl _))
  · exact (perm_sorted _).trans (h.trans (perm_sorted _).symm)
  · intro a b _ _ hab hba
    exact absurd hab (lt_asymm hba)

/-! ## Exposure -/

theorem length_le_of_codes {l : List ℕ} {n : ℕ} (hn : l.Nodup) (h : ∀ k ∈ l, k < n) : l.length ≤ n := by
  have hsub := (List.Nodup.subperm hn fun k hk => List.mem_range.mpr (h k hk)).length_le
  rw [List.length_range] at hsub
  exact hsub

/-- The place of a candidate in its best channel, as a number. -/
def placeCode (channels : Channels I T) (e : I × UnionCandidate T UnionHit) : ℕ :=
  (bestRank e.2.ranks - 1) * channels.list.length +
    priority channels (bestChannel (priority channels) e.2.ranks)

theorem placeCode_lt {e : I × UnionCandidate T UnionHit} {m : ℕ}
    (h : e ∈ (unionChannelRanks channels limit).items) (hm : bestRank e.2.ranks ≤ m) :
    placeCode channels e < m * channels.list.length ∧
      priority channels (bestChannel (priority channels) e.2.ranks) < channels.list.length := by
  obtain ⟨hpos, c, hc, hname, _⟩ := best_place h
  have hpriority : priority channels (bestChannel (priority channels) e.2.ranks) <
      channels.list.length := by
    rw [← hname, ← List.length_map Channel.name]
    exact List.idxOf_lt_length_of_mem (List.mem_map_of_mem hc)
  refine ⟨?_, hpriority⟩
  obtain ⟨r, hr⟩ : ∃ r, m = bestRank e.2.ranks - 1 + 1 + r := ⟨m - bestRank e.2.ranks, by omega⟩
  unfold placeCode
  rw [hr, Nat.add_mul, Nat.add_mul, Nat.one_mul]
  omega

theorem eq_of_placeCode_eq {e e' : I × UnionCandidate T UnionHit}
    (h : e ∈ (unionChannelRanks channels limit).items)
    (h' : e' ∈ (unionChannelRanks channels limit).items)
    (hcode : placeCode channels e = placeCode channels e') : e.1 = e'.1 := by
  obtain ⟨hpos, c, hc, hname, hplace⟩ := best_place h
  obtain ⟨hpos', c', hc', hname', hplace'⟩ := best_place h'
  have hlt := (placeCode_lt h (Nat.le_refl _)).2
  have hlt' := (placeCode_lt h' (Nat.le_refl _)).2
  unfold placeCode at hcode
  have hpositive : 0 < channels.list.length := Nat.lt_of_le_of_lt (Nat.zero_le _) hlt
  have hdiv := congrArg (· / channels.list.length) hcode
  have hmod := congrArg (· % channels.list.length) hcode
  simp only [Nat.mul_comm _ channels.list.length, Nat.mul_add_div hpositive, Nat.mul_add_mod,
    Nat.div_eq_of_lt hlt, Nat.div_eq_of_lt hlt', Nat.mod_eq_of_lt hlt, Nat.mod_eq_of_lt hlt',
    Nat.add_zero] at hdiv hmod
  rw [← hname, ← hname'] at hmod
  have hcc : c.name = c'.name := (List.idxOf_inj (List.mem_map_of_mem hc)).mp hmod
  obtain rfl : c = c' := List.inj_on_of_nodup_map channels.names hc hc' hcc
  rw [hdiv] at hplace
  exact Option.some.inj (hplace.symm.trans hplace')

/-- **The exposure.**  What a channel has among its first `m` is among the first `m * channels`. -/
theorem mem_take_sorted {e : I × UnionCandidate T UnionHit} {m : ℕ}
    (h : e ∈ sorted str channels (unionChannelRanks channels limit).items)
    (hm : bestRank e.2.ranks ≤ m) :
    e ∈ (sorted str channels (unionChannelRanks channels limit).items).take
      (m * channels.list.length) := by
  have hitems : ∀ x ∈ sorted str channels (unionChannelRanks channels limit).items,
      x ∈ (unionChannelRanks channels limit).items := fun x hx => (perm_sorted _).mem_iff.mp hx
  have hsorted : (sorted str channels (unionChannelRanks channels limit).items).Pairwise fun a b =>
      rankKey channels a.2.ranks < rankKey channels b.2.ranks := pairwise_sorted (List.Perm.refl _)
  have hnodup : ((sorted str channels (unionChannelRanks channels limit).items).map Prod.fst).Nodup :=
    ((perm_sorted _).map Prod.fst).nodup_iff.mpr (OrderedDict.nodup _)
  generalize sorted str channels (unionChannelRanks channels limit).items = order at h hitems hsorted hnodup ⊢
  obtain ⟨before, after, rfl⟩ := List.append_of_mem h
  -- those up to `e` have places among the first `m` of the channels
  have hcodes : ((before ++ [e]).map (placeCode channels)).Nodup := by
    have hfirst : (before ++ [e]).Sublist (before ++ e :: after) :=
      List.Sublist.append_left (List.cons_sublist_cons.mpr (List.nil_sublist after)) before
    have hids := hnodup.sublist (hfirst.map Prod.fst)
    apply List.Nodup.map_on _ (List.Nodup.of_map Prod.fst hids)
    intro x hx y hy hxy
    apply List.inj_on_of_nodup_map hids hx hy
    exact eq_of_placeCode_eq (hitems x (hfirst.subset hx)) (hitems y (hfirst.subset hy)) hxy
  have hbound : ∀ k ∈ (before ++ [e]).map (placeCode channels), k < m * channels.list.length := by
    intro k hk
    obtain ⟨x, hx, rfl⟩ := List.mem_map.mp hk
    rcases List.mem_append.mp hx with hx | hx
    · have hlt := (List.pairwise_append.mp hsorted).2.2 x hx e (List.mem_cons_self ..)
      have hrank : bestRank x.2.ranks ≤ bestRank e.2.ranks := by
        rcases Prod.Lex.toLex_lt_toLex.mp hlt with hless | heq
        · exact Nat.le_of_lt hless
        · exact Nat.le_of_eq heq.1
      exact (placeCode_lt (hitems x (List.mem_append_left _ hx)) (Nat.le_trans hrank hm)).1
    · rw [List.mem_singleton.mp hx]
      exact (placeCode_lt (hitems e h) hm).1
  have hlength := length_le_of_codes hcodes hbound
  rw [List.length_map, List.length_append, List.length_singleton] at hlength
  rw [List.mem_take_iff_getElem]
  refine ⟨before.length, ?_, ?_⟩
  · rw [List.length_append, List.length_cons]
    omega
  · rw [List.getElem_append_right (Nat.le_refl _)]
    simp only [Nat.sub_self, List.getElem_cons_zero]

end Order

/-! ## Scores do not matter -/

/-- A channel without its scores. -/
def unscored (c : Channel I T) : String × List (I × T) :=
  (c.name, c.results.map fun r => (r.1, r.2.2))

/-- A result without the scores of its channels. -/
def unscoredResult (r : FusedResult I T) : FusedResult I T :=
  { r with vectorScore := none, graphScore := none, bm25Score := none }

section Unscored

def UnionEntry.mapHit (f : X → Y) (e : UnionEntry I T X) : UnionEntry I T Y :=
  ⟨e.name, e.id, e.item, f e.hit⟩

def mapHits (f : X → Y) (found : OrderedDict I (UnionCandidate T X)) :
    OrderedDict I (UnionCandidate T Y) :=
  found.mapVals fun c => ⟨c.item, c.hits.mapVals f⟩

theorem truncate_map {A B : Type} (f : A → B) (limit : Option ℤ) (l : List A) :
    truncate limit (l.map f) = (truncate limit l).map f := by
  unfold truncate
  cases limit with
  | none => rfl
  | some k =>
    by_cases hk : 0 ≤ k
    · simp only [if_pos hk, List.map_take]
    · simp only [if_neg hk, List.map_take, List.length_map]

/-- The entries of a channel without their scores. -/
def rankEntries (limit : Option ℤ) (c : String × List (I × T)) : List (UnionEntry I T ℕ) :=
  (truncate limit c.2).zipIdx.map fun p => ⟨c.1, p.1.1, p.1.2, p.2 + 1⟩

theorem map_rank_channelEntries (limit : Option ℤ) (c : Channel I T) :
    (channelEntries limit c).map (UnionEntry.mapHit UnionHit.rank) = rankEntries limit (unscored c) := by
  have hzip : ((truncate limit c.results).zip
      (minMaxNormalize ((truncate limit c.results).map fun r => r.2.1))).map Prod.fst =
        truncate limit c.results := by
    apply List.map_fst_zip
    rw [length_minMaxNormalize, List.length_map]
  show _ = ((truncate limit (c.results.map _)).zipIdx).map _
  rw [truncate_map]
  conv_rhs => rw [← hzip, List.map_map, List.zipIdx_map, List.map_map]
  exact List.map_map

variable [DecidableEq I]

theorem mapHits_record (f : X → Y) (found : OrderedDict I (UnionCandidate T X))
    (e : UnionEntry I T X) :
    mapHits f (record found e) = record (mapHits f found) (UnionEntry.mapHit f e) := by
  have hget : (mapHits f found).get? e.id =
      (found.get? e.id).map fun c => ⟨c.item, c.hits.mapVals f⟩ := OrderedDict.get?_mapVals ..
  unfold record
  rw [show (UnionEntry.mapHit f e).id = e.id from rfl, hget]
  cases found.get? e.id with
  | none =>
    simp only [Option.map_none, mapHits, OrderedDict.mapVals_set]
    rfl
  | some c =>
    simp only [Option.map_some, mapHits, OrderedDict.mapVals_set]
    rfl

theorem mapHits_collect (f : X → Y) (entries : List (UnionEntry I T X)) :
    mapHits f (collect entries) = collect (entries.map (UnionEntry.mapHit f)) := by
  induction entries using List.reverseRecOn with
  | nil => rfl
  | append_singleton entries e ih =>
    rw [collect_concat, mapHits_record, ih, List.map_append, List.map_singleton, collect_concat]

/-- What the ranks say of a candidate. -/
def rankView (e : I × UnionCandidate T UnionHit) : I × UnionCandidate T ℕ :=
  (e.1, ⟨e.2.item, e.2.ranks⟩)

theorem map_rankView_items (channels : Channels I T) (limit : Option ℤ) :
    (unionChannelRanks channels limit).items.map rankView =
      (collect ((channels.list.map unscored).flatMap (rankEntries limit))).items := by
  have hentries : (channels.list.flatMap (channelEntries limit)).map (UnionEntry.mapHit UnionHit.rank) =
      (channels.list.map unscored).flatMap (rankEntries limit) := by
    rw [List.map_flatMap, List.flatMap_map]
    congr 1
    funext c
    exact map_rank_channelEntries limit c
  rw [← hentries, ← mapHits_collect]
  rfl

section Views

variable {S : Type} [LinearOrder S] {str : I → S}

theorem map_rankView_sorted {channels channels' : Channels I T} {limit : Option ℤ}
    (h : channels'.list.map unscored = channels.list.map unscored) :
    (sorted str channels' (unionChannelRanks channels' limit).items).map rankView =
      (sorted str channels (unionChannelRanks channels limit).items).map rankView := by
  have hnames : channels'.list.map Channel.name = channels.list.map Channel.name := by
    have hfst := congrArg (List.map Prod.fst) h
    rw [List.map_map, List.map_map] at hfst
    exact hfst
  have hpriority : priority channels' = priority channels := by
    funext name
    unfold priority
    rw [hnames]
  have hkey : rankKey channels' = rankKey channels := by
    funext ranks
    unfold rankKey
    rw [hpriority]
  have hitems : (unionChannelRanks channels' limit).items.map rankView =
      (unionChannelRanks channels limit).items.map rankView := by
    rw [map_rankView_items, map_rankView_items, h]
  have hperm : ((sorted str channels' (unionChannelRanks channels' limit).items).map rankView).Perm
      ((sorted str channels (unionChannelRanks channels limit).items).map rankView) := by
    apply ((perm_sorted _).map rankView).trans
    rw [hitems]
    exact ((perm_sorted _).map rankView).symm
  have hsorted : ((sorted str channels (unionChannelRanks channels limit).items).map rankView).Pairwise
      fun a b => rankKey channels a.2.hits < rankKey channels b.2.hits :=
    List.pairwise_map.mpr (pairwise_sorted (List.Perm.refl _))
  have hsorted' : ((sorted str channels' (unionChannelRanks channels' limit).items).map rankView).Pairwise
      fun a b => rankKey channels a.2.hits < rankKey channels b.2.hits := by
    rw [← hkey]
    exact List.pairwise_map.mpr (pairwise_sorted (List.Perm.refl _))
  apply hperm.eq_of_pairwise _ hsorted' hsorted
  intro a b _ _ hab hba
  exact absurd hab (lt_asymm hba)

omit [DecidableEq I] in
theorem unscoredResult_build (score : ℚ) (e : I × UnionCandidate T UnionHit) :
    unscoredResult (buildUnionResult score e) =
      ⟨(rankView e).1, (rankView e).2.item, score, (rankView e).2.hits.get? "vector",
        (rankView e).2.hits.get? "graph", none, none, (rankView e).2.hits.get? "bm25", none⟩ := by
  have hget : ∀ name, (rankView e).2.hits.get? name = (e.2.hits.get? name).map UnionHit.rank :=
    fun _ => OrderedDict.get?_mapVals ..
  rw [hget, hget, hget]
  rfl

/-- **The scores do not matter**, except for those that the results carry. -/
theorem unionBestRankFusion_unscored {channels channels' : Channels I T} {limit : Option ℤ} (rrfK : ℕ)
    (h : channels'.list.map unscored = channels.list.map unscored) :
    (unionBestRankFusion str channels' rrfK limit).map unscoredResult =
      (unionBestRankFusion str channels rrfK limit).map unscoredResult := by
  have hsorted : (sorted str channels' (unionChannelRanks channels' limit).items).map rankView =
      (sorted str channels (unionChannelRanks channels limit).items).map rankView :=
    map_rankView_sorted h
  have hviews := congrArg (fun l => List.zipIdx l 1) hsorted
  simp only [List.zipIdx_map] at hviews
  have hresults := congrArg (List.map fun p : (I × UnionCandidate T ℕ) × ℕ =>
    (⟨p.1.1, p.1.2.item, 1 / ((rrfK : ℚ) + (p.2 : ℚ)), p.1.2.hits.get? "vector",
        p.1.2.hits.get? "graph", none, none, p.1.2.hits.get? "bm25", none⟩ : FusedResult I T)) hviews
  rw [List.map_map, List.map_map] at hresults
  unfold unionBestRankFusion
  rw [List.map_map, List.map_map]
  calc _ = _ := List.map_congr_left fun p _ => unscoredResult_build _ p.1
    _ = _ := hresults
    _ = _ := (List.map_congr_left fun p _ => unscoredResult_build _ p.1).symm

end Views

end Unscored

/-! ## The fused list -/

section Fused

variable [DecidableEq I] {S : Type} [LinearOrder S] (str : I → S)

theorem map_itemId_fusion (channels : Channels I T) (rrfK : ℕ) (limit : Option ℤ) :
    (unionBestRankFusion str channels rrfK limit).map FusedResult.itemId =
      (sorted str channels (unionChannelRanks channels limit).items).map Prod.fst := by
  unfold unionBestRankFusion
  rw [List.map_map]
  conv_rhs => rw [← List.zipIdx_map_fst 1 (sorted str channels _), List.map_map]
  rfl

omit str in
theorem mem_items_iff {channels : Channels I T} {limit : Option ℤ} {id : I} :
    id ∈ (unionChannelRanks channels limit).items.map Prod.fst ↔
      ∃ c ∈ channels.list, id ∈ (truncate limit c.results).map Prod.fst := by
  constructor
  · intro h
    obtain ⟨e, he, rfl⟩ := List.mem_map.mp h
    obtain ⟨_, c, hc, _, hplace⟩ := best_place he
    rw [← List.getElem?_map] at hplace
    exact ⟨c, hc, List.mem_of_getElem? hplace⟩
  · rintro ⟨c, hc, hid⟩
    obtain ⟨i, hi⟩ := List.getElem?_of_mem hid
    rw [List.getElem?_map] at hi
    obtain ⟨e, he, rfl, _⟩ := exists_candidate hc hi
    exact List.mem_map_of_mem he

omit str in
/-- What a channel has among its first `m` has a best rank up to `m`. -/
theorem exists_candidate_take {channels : Channels I T} {limit : Option ℤ} {c : Channel I T}
    (hc : c ∈ channels.list) {m : ℕ} (hm : ∀ l ∈ limit, (m : ℤ) ≤ l) {r : I × ℚ × T}
    (hr : r ∈ c.results.take m) :
    ∃ e ∈ (unionChannelRanks channels limit).items, e.1 = r.1 ∧ bestRank e.2.ranks ≤ m := by
  obtain ⟨i, hi⟩ := List.getElem?_of_mem hr
  rw [List.getElem?_take] at hi
  obtain ⟨him, hi⟩ : i < m ∧ c.results[i]? = some r := by
    by_cases him : i < m
    · rw [if_pos him] at hi
      exact ⟨him, hi⟩
    · rw [if_neg him] at hi
      cases hi
  obtain ⟨n, hn, hle⟩ := truncate_eq_take limit c.results
  have hlength := (List.getElem?_eq_some_iff.mp hi).1
  have hin : i < n := by
    have := hle m hm
    omega
  have hplace : (truncate limit c.results)[i]?.map Prod.fst = some r.1 := by
    rw [hn, List.getElem?_take_of_lt hin, hi, Option.map_some]
  obtain ⟨e, he, hid, hit, hhit, hrank⟩ := exists_candidate hc hplace
  have hranks : e.2.ranks.get? c.name = some (i + 1) := by
    rw [UnionCandidate.ranks, OrderedDict.get?_mapVals, hhit, Option.map_some, hrank]
  exact ⟨e, he, hid, Nat.le_trans (bestRank_le hranks) him⟩

theorem rrfScore_getElem (channels : Channels I T) (rrfK : ℕ) (limit : Option ℤ) {i : ℕ}
    (hi : i < (unionBestRankFusion str channels rrfK limit).length) :
    (unionBestRankFusion str channels rrfK limit)[i].rrfScore = 1 / ((rrfK : ℚ) + ((i + 1 : ℕ) : ℚ)) := by
  simp only [unionBestRankFusion, List.getElem_map, List.getElem_zipIdx, Nat.add_comm 1 i]
  rfl

/-- **Each id of the union once; the exposure of each channel; an order that ranks alone decide.** -/
theorem unionBestRankFusion_exposure (channels : Channels I T) (rrfK : ℕ) (limit : Option ℤ) :
    ((unionBestRankFusion str channels rrfK limit).map FusedResult.itemId).Nodup ∧
    (∀ id, id ∈ (unionBestRankFusion str channels rrfK limit).map FusedResult.itemId ↔
      ∃ c ∈ channels.list, id ∈ (truncate limit c.results).map Prod.fst) ∧
    (∀ c ∈ channels.list, ∀ m : ℕ, (∀ l ∈ limit, (m : ℤ) ≤ l) → ∀ r ∈ c.results.take m,
      r.1 ∈ ((unionBestRankFusion str channels rrfK limit).take (m * channels.list.length)).map
        FusedResult.itemId) ∧
    (unionBestRankFusion str channels rrfK limit).Pairwise (fun a b => b.rrfScore < a.rrfScore) ∧
    (∀ r ∈ unionBestRankFusion str channels rrfK limit, 0 < r.rrfScore) ∧
    (∀ channels' : Channels I T, channels'.list.map unscored = channels.list.map unscored →
      (unionBestRankFusion str channels' rrfK limit).map unscoredResult =
        (unionBestRankFusion str channels rrfK limit).map unscoredResult) ∧
    ∀ items : List (I × UnionCandidate T UnionHit),
      items.Perm (unionChannelRanks channels limit).items →
        sorted str channels items = sorted str channels (unionChannelRanks channels limit).items := by
  refine ⟨?_, ?_, ?_, ?_, ?_, fun _ h => unionBestRankFusion_unscored rrfK h, fun _ h => sorted_perm h⟩
  · rw [map_itemId_fusion]
    exact ((perm_sorted _).map Prod.fst).nodup_iff.mpr (OrderedDict.nodup _)
  · intro id
    rw [map_itemId_fusion, ((perm_sorted _).map Prod.fst).mem_iff]
    exact mem_items_iff
  · intro c hc m hm r hr
    rw [List.map_take, map_itemId_fusion, ← List.map_take]
    obtain ⟨e, he, hid, hrank⟩ := exists_candidate_take hc hm hr
    rw [← hid]
    exact List.mem_map_of_mem (mem_take_sorted ((perm_sorted _).mem_iff.mpr he) hrank)
  · rw [List.pairwise_iff_getElem]
    intro i j hi hj hij
    rw [rrfScore_getElem, rrfScore_getElem]
    apply one_div_lt_one_div_of_lt
    · positivity
    · have hcast : ((i + 1 : ℕ) : ℚ) < ((j + 1 : ℕ) : ℚ) := Nat.cast_lt.mpr (Nat.succ_lt_succ hij)
      linarith
  · intro r hr
    obtain ⟨i, hi, rfl⟩ := List.getElem_of_mem hr
    rw [rrfScore_getElem]
    positivity

end Fused

end UnionFusion

end Khora
