import Khora.Lib.Modularity
import Khora.Lib.OrderedDict
import Khora.Lib.Runs
import Mathlib.Data.Fintype.Basic
import Mathlib.Data.Fin.Basic
import Mathlib.Algebra.Order.Ring.Rat
import Mathlib.Algebra.Order.BigOperators.Group.Finset
import Mathlib.Data.Prod.Lex
import Mathlib.Tactic.Linarith

/-!
# Communities of a graph

`detect_communities` moves one node after another to the neighbouring community with the largest gain.
Arithmetic is exact; `HashMap` and `dict` are a dictionary with an arbitrary order of iteration.

* `sigmaTot_visit` — `sigma_tot` stays the strength of each community.
* `choose_perm` — the chosen community does not depend on the order of iteration.
* `modularity_le_visit` — no move decreases the modularity.
* `communities_exact` — all of this in every state, and what the labels are.
-/

namespace Khora

namespace Communities

open Modularity (sumInto)

variable {n : ℕ}

/-! ## The graph -/

/-- The edges the callers give: each undirected edge in both directions, with a weight that is not
negative. -/
structure EdgeList where
  edges : List (ℕ × ℕ × ℚ)
  symmetric : (edges.map fun e => (e.2.1, e.1, e.2.2)).Perm edges
  nonneg : ∀ e ∈ edges, 0 ≤ e.2.2

structure Graph (n : ℕ) where
  adj : Fin n → List (Fin n × ℚ)
  strengths : Fin n → ℚ
  totalWeight : ℚ

/-- One turn of the loop over the edges. -/
def Graph.addEdge (g : Graph n) (e : ℕ × ℕ × ℚ) : Graph n :=
  if h : e.1 < n ∧ e.2.1 < n ∧ e.1 ≠ e.2.1 then
    { adj := Function.update g.adj ⟨e.1, h.1⟩ (g.adj ⟨e.1, h.1⟩ ++ [(⟨e.2.1, h.2.1⟩, e.2.2)])
      strengths := Function.update g.strengths ⟨e.1, h.1⟩ (g.strengths ⟨e.1, h.1⟩ + e.2.2)
      totalWeight := g.totalWeight + e.2.2 }
  else
    g

def Graph.build (n : ℕ) (edges : List (ℕ × ℕ × ℚ)) : Graph n :=
  edges.foldl Graph.addEdge ⟨fun _ => [], fun _ => 0, 0⟩

/-- `m = total_weight / 2` -/
def Graph.m (g : Graph n) : ℚ := g.totalWeight / 2

/-! ## One node -/

structure Partition (n : ℕ) where
  community : Fin n → Fin n
  sigmaTot : Fin n → ℚ

/-- Each node in a community of its own. -/
def Partition.init (g : Graph n) : Partition n := ⟨id, g.strengths⟩

/-- The order in which the entries of a map are iterated; it may differ from map to map. -/
structure IterationOrder (n : ℕ) where
  arrange : Partition n → Fin n → List (Fin n × ℚ) → List (Fin n × ℚ)
  perm : ∀ s i items, (arrange s i items).Perm items

/-- The order of a Python dict. -/
def insertionOrder : IterationOrder n := ⟨fun _ _ items => items, fun _ _ _ => .refl _⟩

/-- `k_in` -/
def kIn (g : Graph n) (community : Fin n → Fin n) (i : Fin n) : OrderedDict (Fin n) ℚ :=
  (g.adj i).foldl
    (fun d p => d.set (community p.1) ((d.get? (community p.1)).getD 0 + p.2)) OrderedDict.empty

/-- The gain of the node `i` in a community of weight `sigma`, with `kInC` towards it. -/
def gainOf (g : Graph n) (resolution kInC sigma ki : ℚ) : ℚ :=
  kInC / g.m - resolution * sigma * ki / (2 * g.m * g.m)

/-- `sigma_tot` without the node. -/
def removed (g : Graph n) (s : Partition n) (i : Fin n) : Fin n → ℚ :=
  Function.update s.sigmaTot (s.community i) (s.sigmaTot (s.community i) - g.strengths i)

/-- One turn of the loop over `k_in`: the best gain and community so far. -/
def better (g : Graph n) (resolution : ℚ) (s : Partition n) (i : Fin n) (best : ℚ × Fin n)
    (e : Fin n × ℚ) : ℚ × Fin n :=
  if e.1 = s.community i then best
  else
    let gain := gainOf g resolution e.2 (removed g s i e.1) (g.strengths i)
    if best.1 < gain ∨ gain = best.1 ∧ e.1 < best.2 then (gain, e.1) else best

/-- The best community among the entries of `k_in`. -/
def choose (g : Graph n) (resolution : ℚ) (s : Partition n) (i : Fin n) (items : List (Fin n × ℚ)) :
    ℚ × Fin n :=
  let ci := s.community i
  let gainCi := gainOf g resolution (((kIn g s.community i).get? ci).getD 0) (removed g s i ci) (g.strengths i)
  items.foldl (better g resolution s i) (gainCi, ci)

/-- One turn of the loop over the nodes. -/
def visit (g : Graph n) (resolution : ℚ) (order : IterationOrder n) (s : Partition n) (i : Fin n) :
    Partition n :=
  if g.strengths i = 0 then s
  else
    let best := (choose g resolution s i (order.arrange s i (kIn g s.community i).items)).2
    let sigma := removed g s i
    { community := Function.update s.community i best
      sigmaTot := Function.update sigma best (sigma best + g.strengths i) }

/-! ## Passes -/

/-- The loop over the nodes, and whether one has moved. -/
def onePass (g : Graph n) (resolution : ℚ) (order : IterationOrder n) (s : Partition n) :
    Partition n × Bool :=
  (List.finRange n).foldl
    (fun t i =>
      let next := visit g resolution order t.1 i
      (next, t.2 || decide (next.community i ≠ t.1.community i)))
    (s, false)

/-- `for _ in range(max_iter)`, left when no node has moved. -/
def passes (g : Graph n) (resolution : ℚ) (order : IterationOrder n) : ℕ → Partition n → Partition n
  | 0, s => s
  | k + 1, s =>
      let t := onePass g resolution order s
      if t.2 then passes g resolution order k t.1 else t.1

/-- The partition at the end. -/
def finalPartition (g : Graph n) (resolution : ℚ) (order : IterationOrder n) (maxIter : ℕ) : Partition n :=
  passes g resolution order maxIter (Partition.init g)

/-! ## Labels -/

structure Relabel (n : ℕ) where
  idMap : OrderedDict (Fin n) ℕ
  result : Fin n → ℤ

/-- One turn of the last loop. -/
def relabelStep (g : Graph n) (community : Fin n → Fin n) (r : Relabel n) (i : Fin n) : Relabel n :=
  if 0 < g.strengths i then
    match r.idMap.get? (community i) with
    | some label => { r with result := Function.update r.result i label }
    | none =>
        { idMap := r.idMap.set (community i) r.idMap.size
          result := Function.update r.result i r.idMap.size }
  else
    r

def relabel (g : Graph n) (community : Fin n → Fin n) : Relabel n :=
  (List.finRange n).foldl (relabelStep g community) ⟨OrderedDict.empty, fun _ => -1⟩

/-- `detect_communities` -/
def detectCommunities (n : ℕ) (edges : List (ℕ × ℕ × ℚ)) (resolution : ℚ) (maxIter : ℕ)
    (order : IterationOrder n) : List ℤ :=
  let g := Graph.build n edges
  if n = 0 then []
  else if g.m = 0 then List.replicate n (-1)
  else List.ofFn (relabel g (finalPartition g resolution order maxIter).community).result

/-! ## What the graph is -/

/-- The weight between two nodes. -/
def Graph.weight (g : Graph n) (a b : Fin n) : ℚ := ((g.adj a).map fun p => if p.1 = b then p.2 else 0).sum

/-- What an edge adds to the weight between two nodes. -/
def edgeWeight (a b : Fin n) (e : ℕ × ℕ × ℚ) : ℚ := if e.1 = a ∧ e.2.1 = b ∧ e.1 ≠ e.2.1 then e.2.2 else 0

/-- What the loop over the edges keeps: the strengths are the sums of the weights, no node is its own
neighbour, and no weight is negative. -/
structure Graph.Consistent (g : Graph n) : Prop where
  strengths_eq : ∀ a, g.strengths a = ((g.adj a).map Prod.snd).sum
  no_loop : ∀ a, ∀ p ∈ g.adj a, p.1 ≠ a
  nonneg : ∀ a, ∀ p ∈ g.adj a, 0 ≤ p.2
  total_eq : g.totalWeight = ∑ a, g.strengths a

theorem Graph.weight_addEdge (g : Graph n) (e : ℕ × ℕ × ℚ) (a b : Fin n) :
    (g.addEdge e).weight a b = g.weight a b + edgeWeight a b e := by
  unfold Graph.addEdge
  split
  case isTrue h =>
    unfold Graph.weight
    by_cases ha : a = ⟨e.1, h.1⟩
    · subst ha
      simp only [Function.update_self, List.map_append, List.sum_append, List.map_cons, List.map_nil,
        List.sum_cons, List.sum_nil, add_zero]
      congr 1
      unfold edgeWeight
      by_cases hb : e.2.1 = b
      · rw [if_pos (Fin.ext hb), if_pos ⟨rfl, hb, h.2.2⟩]
      · rw [if_neg fun h' => hb (congrArg Fin.val h'), if_neg fun h' => hb h'.2.1]
    · simp only [Function.update_of_ne ha]
      have hne : ¬(e.1 = (a : ℕ) ∧ e.2.1 = (b : ℕ) ∧ e.1 ≠ e.2.1) := by
        rintro ⟨h1, -⟩
        exact ha (Fin.ext h1.symm)
      unfold edgeWeight
      rw [if_neg hne, add_zero]
  case isFalse h =>
    have hne : ¬(e.1 = (a : ℕ) ∧ e.2.1 = (b : ℕ) ∧ e.1 ≠ e.2.1) := by
      rintro ⟨h1, h2, h3⟩
      exact h ⟨by rw [h1]; exact a.isLt, by rw [h2]; exact b.isLt, h3⟩
    unfold edgeWeight
    rw [if_neg hne, add_zero]

theorem Graph.Consistent.addEdge {g : Graph n} (hg : g.Consistent) {e : ℕ × ℕ × ℚ} (he : 0 ≤ e.2.2) :
    (g.addEdge e).Consistent := by
  unfold Graph.addEdge
  split
  case isFalse => exact hg
  case isTrue h =>
    have hcases : ∀ a, ∀ p ∈ Function.update g.adj ⟨e.1, h.1⟩
        (g.adj ⟨e.1, h.1⟩ ++ [(⟨e.2.1, h.2.1⟩, e.2.2)]) a,
        p ∈ g.adj a ∨ a = ⟨e.1, h.1⟩ ∧ p = (⟨e.2.1, h.2.1⟩, e.2.2) := by
      intro a p hp
      by_cases ha : a = ⟨e.1, h.1⟩
      · rw [ha, Function.update_self, List.mem_append, List.mem_singleton] at hp
        exact hp.imp (fun h' => ha ▸ h') fun h' => ⟨ha, h'⟩
      · rw [Function.update_of_ne ha] at hp
        exact .inl hp
    refine ⟨?_, ?_, ?_, ?_⟩
    · intro a
      by_cases ha : a = ⟨e.1, h.1⟩
      · simp only [ha, Function.update_self, List.map_append, List.sum_append, hg.strengths_eq]
        simp
      · simp only [Function.update_of_ne ha, hg.strengths_eq]
    · intro a p hp
      rcases hcases a p hp with hp | ⟨rfl, rfl⟩
      · exact hg.no_loop a p hp
      · exact fun heq => h.2.2 (congrArg Fin.val heq).symm
    · intro a p hp
      rcases hcases a p hp with hp | ⟨rfl, rfl⟩
      · exact hg.nonneg a p hp
      · exact he
    · show g.totalWeight + e.2.2 = ∑ a, Function.update g.strengths _ _ a
      rw [hg.total_eq, Modularity.sum_eq_add_erase _ ⟨e.1, h.1⟩,
        Modularity.sum_eq_add_erase (Function.update _ _ _) ⟨e.1, h.1⟩, Function.update_self,
        Finset.sum_congr rfl fun a ha => Function.update_of_ne (Finset.ne_of_mem_erase ha) _ _]
      ring

theorem Graph.consistent_build {edges : List (ℕ × ℕ × ℚ)} (h : ∀ e ∈ edges, 0 ≤ e.2.2) :
    (Graph.build n edges).Consistent := by
  have hrun : ∀ (edges : List (ℕ × ℕ × ℚ)) (g : Graph n), g.Consistent → (∀ e ∈ edges, 0 ≤ e.2.2) →
      (edges.foldl Graph.addEdge g).Consistent := by
    intro edges
    induction edges with
    | nil => exact fun g hg _ => hg
    | cons e edges ih =>
        intro g hg hall
        rw [List.forall_mem_cons] at hall
        exact ih _ (hg.addEdge hall.1) hall.2
  apply hrun edges _ ⟨fun _ => rfl, ?_, ?_, ?_⟩ h
  · exact fun _ _ hp => absurd hp List.not_mem_nil
  · exact fun _ _ hp => absurd hp List.not_mem_nil
  · exact Finset.sum_const_zero.symm

theorem Graph.weight_build (edges : List (ℕ × ℕ × ℚ)) (a b : Fin n) :
    (Graph.build n edges).weight a b = (edges.map (edgeWeight a b)).sum := by
  have hrun : ∀ (edges : List (ℕ × ℕ × ℚ)) (g : Graph n),
      (edges.foldl Graph.addEdge g).weight a b = g.weight a b + (edges.map (edgeWeight a b)).sum := by
    intro edges
    induction edges with
    | nil => exact fun g => (add_zero _).symm
    | cons e edges ih =>
        intro g
        rw [List.foldl_cons, ih, Graph.weight_addEdge, List.map_cons, List.sum_cons, add_assoc]
  exact (hrun edges _).trans (zero_add _)

/-- **The weights are symmetric**, as every edge comes in both directions. -/
theorem weight_symm (l : EdgeList) (a b : Fin n) :
    (Graph.build n l.edges).weight a b = (Graph.build n l.edges).weight b a := by
  have hturn : ∀ e : ℕ × ℕ × ℚ, edgeWeight a b (e.2.1, e.1, e.2.2) = edgeWeight b a e := by
    intro e
    unfold edgeWeight
    by_cases h : e.1 = b ∧ e.2.1 = a ∧ e.1 ≠ e.2.1
    · rw [if_pos h, if_pos ⟨h.2.1, h.1, h.2.2.symm⟩]
    · rw [if_neg h, if_neg fun h' => h ⟨h'.2.1, h'.1, h'.2.2.symm⟩]
  rw [Graph.weight_build, Graph.weight_build, ← (l.symmetric.map (edgeWeight a b)).sum_eq, List.map_map]
  congr 1
  exact List.map_congr_left fun e _ => hturn e

theorem Graph.Consistent.strengths_nonneg {g : Graph n} (hg : g.Consistent) (a : Fin n) :
    0 ≤ g.strengths a := by
  rw [hg.strengths_eq]
  apply List.sum_nonneg
  intro w hw
  obtain ⟨p, hp, rfl⟩ := List.mem_map.mp hw
  exact hg.nonneg a p hp

/-- Without weight no node has a neighbour. -/
theorem Graph.Consistent.strengths_zero {g : Graph n} (hg : g.Consistent) (hm : g.m = 0) (a : Fin n) :
    g.strengths a = 0 := by
  have htotal : ∑ a, g.strengths a = 0 := by
    rw [← hg.total_eq]
    unfold Graph.m at hm
    linarith
  exact (Finset.sum_eq_zero_iff_of_nonneg fun a _ => hg.strengths_nonneg a).mp htotal a (Finset.mem_univ a)

/-! ## The weights towards the communities -/

theorem get?_kIn (g : Graph n) (community : Fin n → Fin n) (i c : Fin n) :
    ((kIn g community i).get? c).getD 0 =
      ((g.adj i).map fun p => if community p.1 = c then p.2 else 0).sum := by
  have hrun : ∀ (l : List (Fin n × ℚ)) (d : OrderedDict (Fin n) ℚ),
      (((l.foldl (fun d p => d.set (community p.1) ((d.get? (community p.1)).getD 0 + p.2)) d).get? c).getD 0) =
        (d.get? c).getD 0 + (l.map fun p => if community p.1 = c then p.2 else 0).sum := by
    intro l
    induction l with
    | nil => exact fun d => (add_zero _).symm
    | cons p l ih =>
        intro d
        rw [List.foldl_cons, ih, OrderedDict.get?_set, List.map_cons, List.sum_cons]
        by_cases h : community p.1 = c
        · rw [if_pos h, if_pos h.symm, Option.getD_some, h, add_assoc]
        · rw [if_neg h, if_neg fun h' => h h'.symm, zero_add]
  exact (hrun _ _).trans (zero_add _)

/-- The weights of a list of neighbours, community by community and neighbour by neighbour. -/
theorem sum_neighbours (community : Fin n → Fin n) (c : Fin n) (l : List (Fin n × ℚ)) :
    (l.map fun p => if community p.1 = c then p.2 else 0).sum =
      ∑ j, if community j = c then (l.map fun p => if p.1 = j then p.2 else 0).sum else 0 := by
  induction l with
  | nil => simp
  | cons p l ih =>
      have hsplit : ∀ j, (if community j = c then
          ((p :: l).map fun p => if p.1 = j then p.2 else 0).sum else 0) =
            (if p.1 = j then (if community p.1 = c then p.2 else 0) else 0) +
              if community j = c then (l.map fun p => if p.1 = j then p.2 else 0).sum else 0 := by
        intro j
        rw [List.map_cons, List.sum_cons]
        by_cases hj : p.1 = j
        · subst hj
          by_cases hc : community p.1 = c
          · simp [hc]
          · simp [hc]
        · rw [if_neg hj, if_neg hj, zero_add, zero_add]
      rw [List.map_cons, List.sum_cons, ih, Finset.sum_congr rfl fun j _ => hsplit j,
        Finset.sum_add_distrib, Finset.sum_ite_eq, if_pos (Finset.mem_univ _)]

/-- **`k_in` holds the weight of the node towards each community.** -/
theorem kIn_eq_sumInto {g : Graph n} (hg : g.Consistent) (community : Fin n → Fin n) (i c : Fin n) :
    ((kIn g community i).get? c).getD 0 = sumInto (g.weight i) community i c := by
  have hself : g.weight i i = 0 := by
    unfold Graph.weight
    apply List.sum_eq_zero
    intro w hw
    obtain ⟨p, hp, rfl⟩ := List.mem_map.mp hw
    exact if_neg (hg.no_loop i p hp)
  rw [get?_kIn, sum_neighbours, Modularity.sum_eq_add_erase _ i]
  show (if community i = c then g.weight i i else 0) + sumInto (g.weight i) community i c = _
  rw [hself, ite_self, zero_add]

/-! ## The choice -/

/-- Gains in their order, and among equal ones the smallest community first. -/
def rank (best : ℚ × Fin n) : ℚ ×ₗ (Fin n)ᵒᵈ := toLex (best.1, OrderDual.toDual best.2)

theorem rank_injective : Function.Injective (rank (n := n)) := by
  intro a b h
  have hpair := toLex.injective h
  exact Prod.ext (congrArg Prod.fst hpair) (OrderDual.toDual.injective (congrArg Prod.snd hpair))

theorem rank_lt_iff {a b : ℚ × Fin n} : rank a < rank b ↔ a.1 < b.1 ∨ b.1 = a.1 ∧ b.2 < a.2 := by
  unfold rank
  rw [Prod.Lex.toLex_lt_toLex, OrderDual.toDual_lt_toDual]
  exact or_congr_right (and_congr_left fun _ => eq_comm)

variable (g : Graph n) (resolution : ℚ) (s : Partition n) (i : Fin n)

/-- The gain in the community of an entry of `k_in`. -/
def candidate (e : Fin n × ℚ) : ℚ × Fin n :=
  (gainOf g resolution e.2 (removed g s i e.1) (g.strengths i), e.1)

/-- The same turn on ranks. -/
def betterRank (best : ℚ ×ₗ (Fin n)ᵒᵈ) (e : Fin n × ℚ) : ℚ ×ₗ (Fin n)ᵒᵈ :=
  if e.1 = s.community i then best else max best (rank (candidate g resolution s i e))

theorem rank_better (best : ℚ × Fin n) (e : Fin n × ℚ) :
    rank (better g resolution s i best e) = betterRank g resolution s i (rank best) e := by
  unfold better betterRank
  by_cases hci : e.1 = s.community i
  · rw [if_pos hci, if_pos hci]
  · rw [if_neg hci, if_neg hci, max_def_lt]
    show rank (if best.1 < (candidate g resolution s i e).1 ∨ (candidate g resolution s i e).1 = best.1 ∧
      (candidate g resolution s i e).2 < best.2 then candidate g resolution s i e else best) = _
    by_cases hlt : rank best < rank (candidate g resolution s i e)
    · rw [if_pos (rank_lt_iff.mp hlt), if_pos hlt]
    · rw [if_neg fun h => hlt (rank_lt_iff.mpr h), if_neg hlt]

theorem rank_foldl_better (items : List (Fin n × ℚ)) (best : ℚ × Fin n) :
    rank (items.foldl (better g resolution s i) best) =
      items.foldl (betterRank g resolution s i) (rank best) := by
  induction items generalizing best with
  | nil => rfl
  | cons e items ih => rw [List.foldl_cons, List.foldl_cons, ih, rank_better]

instance rightCommutative_betterRank : RightCommutative (betterRank g resolution s i) := by
  constructor
  intro best e e'
  unfold betterRank
  split_ifs
  · rfl
  · rfl
  · rfl
  · exact max_right_comm _ _ _

/-- **The chosen community does not depend on the order of iteration.** -/
theorem choose_perm {items items' : List (Fin n × ℚ)} (h : items.Perm items') :
    choose g resolution s i items = choose g resolution s i items' := by
  apply rank_injective
  unfold choose
  rw [rank_foldl_better, rank_foldl_better]
  exact h.foldl_eq _

variable {g resolution s i}

/-- The best so far only gets better. -/
theorem le_foldl_betterRank (items : List (Fin n × ℚ)) (best : ℚ ×ₗ (Fin n)ᵒᵈ) :
    best ≤ items.foldl (betterRank g resolution s i) best := by
  induction items generalizing best with
  | nil => exact le_rfl
  | cons e items ih =>
      apply le_trans _ (ih _)
      unfold betterRank
      split
      · exact le_rfl
      · exact le_max_left _ _

theorem foldl_better_cases (items : List (Fin n × ℚ)) (best : ℚ × Fin n) :
    items.foldl (better g resolution s i) best = best ∨
      ∃ e ∈ items, items.foldl (better g resolution s i) best = candidate g resolution s i e := by
  induction items generalizing best with
  | nil => exact .inl rfl
  | cons e items ih =>
      rw [List.foldl_cons]
      have hone : better g resolution s i best e = best ∨
          better g resolution s i best e = candidate g resolution s i e := by
        unfold better
        split
        · exact .inl rfl
        · simp only
          split
          · exact .inr rfl
          · exact .inl rfl
      rcases ih (better g resolution s i best e) with h | ⟨e', he', h⟩
      · rcases hone with hone | hone
        · exact .inl (h.trans hone)
        · exact .inr ⟨e, List.mem_cons_self, h.trans hone⟩
      · exact .inr ⟨e', List.mem_cons_of_mem _ he', h⟩

/-! ## One visit -/

/-- `sigma_tot` is the strength of every community. -/
def SigmaTot (g : Graph n) (s : Partition n) : Prop :=
  ∀ c, s.sigmaTot c = ∑ j, if s.community j = c then g.strengths j else 0

/-- While a node is removed, `sigma_tot` is the strength of the others. -/
theorem SigmaTot.removed_eq (h : SigmaTot g s) (i c : Fin n) :
    removed g s i c = sumInto g.strengths s.community i c := by
  have hsplit := h c
  rw [Modularity.sum_eq_add_erase _ i] at hsplit
  unfold removed
  by_cases hc : c = s.community i
  · subst hc
    rw [Function.update_self, hsplit, if_pos rfl]
    show g.strengths i + sumInto g.strengths s.community i (s.community i) - g.strengths i = _
    ring
  · rw [Function.update_of_ne hc, hsplit, if_neg fun h' => hc h'.symm, zero_add]
    rfl

/-- The gain the code computes is the gain in modularity. -/
theorem gain_eq (hg : g.Consistent) (h : SigmaTot g s) (c : Fin n) :
    gainOf g resolution (((kIn g s.community i).get? c).getD 0) (removed g s i c) (g.strengths i) =
      Modularity.gain g.weight g.strengths g.m resolution s.community i c := by
  rw [kIn_eq_sumInto hg, h.removed_eq]
  rfl

/-- The choice is a community with its gain, and no worse than to stay. -/
theorem choose_spec (hg : g.Consistent) (h : SigmaTot g s) {items : List (Fin n × ℚ)}
    (hitems : items.Perm (kIn g s.community i).items) :
    (choose g resolution s i items).1 =
        Modularity.gain g.weight g.strengths g.m resolution s.community i (choose g resolution s i items).2 ∧
      Modularity.gain g.weight g.strengths g.m resolution s.community i (s.community i) ≤
        (choose g resolution s i items).1 := by
  have hstay := @gain_eq n g resolution s i hg h (s.community i)
  constructor
  · unfold choose
    rcases @foldl_better_cases n g resolution s i items
      (gainOf g resolution (((kIn g s.community i).get? (s.community i)).getD 0)
        (removed g s i (s.community i)) (g.strengths i), s.community i) with hbest | ⟨e, he, hbest⟩
    · simp only
      rw [hbest]
      exact hstay
    · simp only
      rw [hbest]
      have hget : (kIn g s.community i).get? e.1 = some e.2 :=
        OrderedDict.get?_eq_some_iff.mpr (hitems.mem_iff.mp he)
      have hgain := @gain_eq n g resolution s i hg h e.1
      rw [hget, Option.getD_some] at hgain
      exact hgain
  · have hle := @le_foldl_betterRank n g resolution s i items
      (rank (gainOf g resolution (((kIn g s.community i).get? (s.community i)).getD 0)
        (removed g s i (s.community i)) (g.strengths i), s.community i))
    rw [← rank_foldl_better, hstay] at hle
    have hfirst := (Prod.Lex.le_iff.mp hle)
    unfold choose
    simp only
    rw [hstay]
    rcases hfirst with hlt | ⟨heq, -⟩
    · exact le_of_lt hlt
    · exact le_of_eq heq

variable {order : IterationOrder n}

/-- **`sigma_tot` stays the strength of each community.** -/
theorem sigmaTot_visit (h : SigmaTot g s) (i : Fin n) : SigmaTot g (visit g resolution order s i) := by
  unfold visit
  split
  · exact h
  · intro c
    simp only
    generalize (choose g resolution s i (order.arrange s i (kIn g s.community i).items)).2 = best
    show Function.update (removed g s i) best (removed g s i best + g.strengths i) c =
      ∑ j, if Function.update s.community i best j = c then g.strengths j else 0
    rw [Modularity.sum_eq_add_erase _ i, Function.update_self]
    show _ = (if best = c then g.strengths i else 0) +
      sumInto g.strengths (Function.update s.community i best) i c
    rw [Modularity.sumInto_update]
    by_cases hc : c = best
    · subst hc
      rw [Function.update_self, h.removed_eq, if_pos rfl]
      ring
    · rw [Function.update_of_ne hc, h.removed_eq, if_neg fun h' => hc h'.symm, zero_add]

/-- **No move decreases the modularity.** -/
theorem modularity_le_visit (hg : g.Consistent) (hsymm : ∀ a b, g.weight a b = g.weight b a)
    (h : SigmaTot g s) (i : Fin n) :
    Modularity.modularity g.weight g.strengths g.m resolution s.community ≤
      Modularity.modularity g.weight g.strengths g.m resolution (visit g resolution order s i).community := by
  unfold visit
  split
  · exact le_rfl
  · rename_i hne
    have hm : g.m ≠ 0 := fun hm => hne (hg.strengths_zero hm i)
    obtain ⟨hgain, hbest⟩ := @choose_spec n g resolution s i hg h _
      (order.perm s i (kIn g s.community i).items)
    have hmove := @Modularity.modularity_update _ _ _ _ _ _ _ _ g.strengths _ resolution _ hsymm hm
      s.community i (choose g resolution s i (order.arrange s i (kIn g s.community i).items)).2
    simp only
    rw [hgain] at hbest
    linarith

/-- The order of iteration does not matter to a visit. -/
theorem visit_order (g : Graph n) (resolution : ℚ) (order order' : IterationOrder n) :
    visit g resolution order = visit g resolution order' := by
  funext s i
  have hperm := (order.perm s i (kIn g s.community i).items).trans
    (order'.perm s i (kIn g s.community i).items).symm
  unfold visit
  rw [choose_perm g resolution s i hperm]

/-! ## Every state -/

theorem sigmaTot_init (g : Graph n) : SigmaTot g (Partition.init g) := by
  intro c
  show g.strengths c = ∑ j, if j = c then g.strengths j else 0
  rw [Finset.sum_ite_eq' Finset.univ c, if_pos (Finset.mem_univ c)]

/-- After any visits `sigma_tot` is the strength of each community. -/
theorem sigmaTot_run (g : Graph n) (resolution : ℚ) (order : IterationOrder n) (visits : List (Fin n)) :
    SigmaTot g (Runs.run (visit g resolution order) (Partition.init g) visits) :=
  @Runs.run_of_step _ _ _ (SigmaTot g) (fun _ i h => sigmaTot_visit h i) _ (sigmaTot_init g) visits

theorem onePass_fst (g : Graph n) (resolution : ℚ) (order : IterationOrder n) (s : Partition n) :
    (onePass g resolution order s).1 = Runs.run (visit g resolution order) s (List.finRange n) := by
  have hfold : ∀ (l : List (Fin n)) (t : Partition n × Bool),
      (l.foldl
        (fun t i =>
          let next := visit g resolution order t.1 i
          (next, t.2 || decide (next.community i ≠ t.1.community i))) t).1 =
        Runs.run (visit g resolution order) t.1 l := by
    intro l
    induction l with
    | nil => exact fun _ => rfl
    | cons i l ih => exact fun t => ih _
  exact hfold _ _

theorem passes_succ (g : Graph n) (resolution : ℚ) (order : IterationOrder n) (k : ℕ) (s : Partition n) :
    passes g resolution order (k + 1) s =
      if (onePass g resolution order s).2 then passes g resolution order k (onePass g resolution order s).1
      else (onePass g resolution order s).1 := rfl

/-- The loop makes some number of whole passes. -/
theorem exists_passes (g : Graph n) (resolution : ℚ) (order : IterationOrder n) (k : ℕ) (s : Partition n) :
    ∃ j ≤ k, passes g resolution order k s =
      Runs.run (visit g resolution order) s (List.replicate j (List.finRange n)).flatten := by
  induction k generalizing s with
  | zero => exact ⟨0, le_rfl, rfl⟩
  | succ k ih =>
      rw [passes_succ]
      split
      · obtain ⟨j, hj, heq⟩ := ih (onePass g resolution order s).1
        refine ⟨j + 1, Nat.succ_le_succ hj, ?_⟩
        rw [heq, onePass_fst, List.replicate_succ, List.flatten_cons, Runs.run_append]
      · refine ⟨1, Nat.succ_le_succ (Nat.zero_le _), ?_⟩
        rw [onePass_fst, List.replicate_one, List.flatten_singleton]

/-- The orders of iteration do not matter to the partition at the end. -/
theorem finalPartition_order (g : Graph n) (resolution : ℚ) (order order' : IterationOrder n) (maxIter : ℕ) :
    finalPartition g resolution order maxIter = finalPartition g resolution order' maxIter := by
  have hpass : onePass g resolution order = onePass g resolution order' := by
    unfold onePass
    rw [visit_order g resolution order order']
  have hpasses : ∀ (k : ℕ) (s : Partition n),
      passes g resolution order k s = passes g resolution order' k s := by
    intro k
    induction k with
    | zero => exact fun _ => rfl
    | succ k ih =>
        intro s
        rw [passes_succ, passes_succ, hpass, ih]
  exact hpasses maxIter _

/-! ## The labels -/

/-- The labels of a partition: -1 for a node without neighbours, and else 0 to k - 1, in the order in which
the communities come first. -/
structure LabelsOf (g : Graph n) (community : Fin n → Fin n) (result : Fin n → ℤ) : Prop where
  isolated : ∀ i, result i = -1 ↔ g.strengths i = 0
  same : ∀ i j, g.strengths i ≠ 0 → g.strengths j ≠ 0 → (result i = result j ↔ community i = community j)
  compact : ∃ k : ℕ, ∀ v : ℤ, (0 ≤ v ∧ v < k) ↔ ∃ i, g.strengths i ≠ 0 ∧ result i = v
  first : ∀ i, g.strengths i ≠ 0 → ∀ v : ℤ, 0 ≤ v → v < result i →
    ∃ j < i, g.strengths j ≠ 0 ∧ result j = v

/-- The loop so far, over the nodes `done`: the map numbers their communities, and the labels are its
numbers. -/
structure Relabel.Inv (g : Graph n) (community : Fin n → Fin n) (done : List (Fin n)) (r : Relabel n) :
    Prop where
  fresh : ∀ i ∉ done, r.result i = -1
  isolated : ∀ i, ¬0 < g.strengths i → r.result i = -1
  known : ∀ i ∈ done, 0 < g.strengths i → ∃ v, r.idMap.get? (community i) = some v ∧ r.result i = v
  bound : ∀ c v, r.idMap.get? c = some v → v < r.idMap.size
  inj : ∀ c c' v, r.idMap.get? c = some v → r.idMap.get? c' = some v → c = c'
  onto : ∀ v < r.idMap.size, ∃ i ∈ done, 0 < g.strengths i ∧ r.result i = v
  first : ∀ i ∈ done, 0 < g.strengths i → ∀ v : ℤ, 0 ≤ v → v < r.result i →
    ∃ j ∈ done, j < i ∧ 0 < g.strengths j ∧ r.result j = v

theorem mem_concat {i j : Fin n} {done : List (Fin n)} : j ∈ done ++ [i] ↔ j ∈ done ∨ j = i := by
  rw [List.mem_append, List.mem_singleton]

/-- **One turn numbers the community of the node**, if it has no number. -/
theorem Relabel.Inv.step {g : Graph n} {community : Fin n → Fin n} {done : List (Fin n)} {r : Relabel n}
    (h : r.Inv g community done) {i : Fin n} (hi : ∀ j ∈ done, j < i) :
    (relabelStep g community r i).Inv g community (done ++ [i]) := by
  have hne : ∀ j ∈ done, j ≠ i := fun j hj => ne_of_lt (hi j hj)
  unfold relabelStep
  by_cases hpos : 0 < g.strengths i
  · rw [if_pos hpos]
    -- the label of `i` is a number that is there, or the next one
    have hlater : ∀ label : ℕ, label ≤ r.idMap.size → ∀ v : ℤ, 0 ≤ v → v < label →
        ∃ j ∈ done, j < i ∧ 0 < g.strengths j ∧ r.result j = v := by
      intro label hlabel v hv hlt
      obtain ⟨j, hj, hjpos, hjv⟩ := h.onto v.toNat (by omega)
      exact ⟨j, hj, hi j hj, hjpos, by rw [hjv]; omega⟩
    have hfirst : ∀ label : ℕ, label ≤ r.idMap.size → ∀ j ∈ done ++ [i], 0 < g.strengths j → ∀ v : ℤ, 0 ≤ v →
        v < Function.update r.result i (label : ℤ) j →
          ∃ k ∈ done ++ [i], k < j ∧ 0 < g.strengths k ∧ Function.update r.result i (label : ℤ) k = v := by
      intro label hlabel j hj hjpos v hv hlt
      have hkeep : (∃ k ∈ done, k < j ∧ 0 < g.strengths k ∧ r.result k = v) →
          ∃ k ∈ done ++ [i], k < j ∧ 0 < g.strengths k ∧ Function.update r.result i (label : ℤ) k = v := by
        rintro ⟨k, hk, hkj, hkpos, hkv⟩
        exact ⟨k, mem_concat.mpr (.inl hk), hkj, hkpos, by rw [Function.update_of_ne (hne k hk), hkv]⟩
      rcases mem_concat.mp hj with hj | rfl
      · rw [Function.update_of_ne (hne j hj)] at hlt
        exact hkeep (h.first j hj hjpos v hv hlt)
      · rw [Function.update_self] at hlt
        exact hkeep (hlater label hlabel v hv hlt)
    have hfresh : ∀ label : ℤ, ∀ j ∉ done ++ [i], Function.update r.result i label j = -1 := by
      intro label j hj
      rw [mem_concat, not_or] at hj
      rw [Function.update_of_ne hj.2, h.fresh j hj.1]
    have hisolated : ∀ label : ℤ, ∀ j, ¬0 < g.strengths j → Function.update r.result i label j = -1 := by
      intro label j hj
      have hji : j ≠ i := by
        rintro rfl
        exact hj hpos
      rw [Function.update_of_ne hji, h.isolated j hj]
    have honto : ∀ label : ℤ, ∀ v < r.idMap.size,
        ∃ j ∈ done ++ [i], 0 < g.strengths j ∧ Function.update r.result i label j = v := by
      intro label v hv
      obtain ⟨j, hj, hjpos, hjv⟩ := h.onto v hv
      exact ⟨j, mem_concat.mpr (.inl hj), hjpos, by rw [Function.update_of_ne (hne j hj), hjv]⟩
    split
    case h_1 label hlabel =>
      have hbound := h.bound _ _ hlabel
      refine ⟨hfresh label, hisolated label, ?_, h.bound, h.inj, honto label, hfirst label hbound.le⟩
      intro j hj hjpos
      rcases mem_concat.mp hj with hj | rfl
      · obtain ⟨v, hv, hjv⟩ := h.known j hj hjpos
        exact ⟨v, hv, (Function.update_of_ne (hne j hj) _ _).trans hjv⟩
      · exact ⟨label, hlabel, Function.update_self _ _ _⟩
    case h_2 hnone =>
      have hsize := OrderedDict.size_set_of_none hnone r.idMap.size
      refine ⟨hfresh _, hisolated _, ?_, ?_, ?_, ?_, hfirst _ (Nat.le_refl _)⟩
      · intro j hj hjpos
        simp only
        rw [OrderedDict.get?_set]
        rcases mem_concat.mp hj with hj | rfl
        · obtain ⟨v, hv, hjv⟩ := h.known j hj hjpos
          have hother : community j ≠ community i := by
            intro heq
            rw [heq, hnone] at hv
            cases hv
          exact ⟨v, by rw [if_neg hother, hv], (Function.update_of_ne (hne j hj) _ _).trans hjv⟩
        · exact ⟨_, if_pos rfl, Function.update_self _ _ _⟩
      · intro c v hv
        simp only at hv ⊢
        rw [OrderedDict.get?_set] at hv
        rw [hsize]
        by_cases hc : c = community i
        · rw [if_pos hc] at hv
          cases hv
          exact Nat.lt_succ_self _
        · rw [if_neg hc] at hv
          exact Nat.lt_succ_of_lt (h.bound c v hv)
      · intro c c' v hv hv'
        simp only at hv hv'
        rw [OrderedDict.get?_set] at hv hv'
        by_cases hc : c = community i
        · by_cases hc' : c' = community i
          · rw [hc, hc']
          · rw [if_pos hc] at hv
            rw [if_neg hc'] at hv'
            cases hv
            exact absurd (h.bound c' _ hv') (Nat.lt_irrefl _)
        · rw [if_neg hc] at hv
          by_cases hc' : c' = community i
          · rw [if_pos hc'] at hv'
            cases hv'
            exact absurd (h.bound c _ hv) (Nat.lt_irrefl _)
          · rw [if_neg hc'] at hv'
            exact h.inj c c' v hv hv'
      · intro v hv
        simp only at hv
        rw [hsize] at hv
        by_cases hlast : v = r.idMap.size
        · exact ⟨i, mem_concat.mpr (.inr rfl), hpos, by rw [hlast]; exact Function.update_self _ _ _⟩
        · exact honto _ v (by omega)
  · rw [if_neg hpos]
    refine ⟨?_, h.isolated, ?_, h.bound, h.inj, ?_, ?_⟩
    · intro j hj
      rw [mem_concat, not_or] at hj
      exact h.fresh j hj.1
    · intro j hj hjpos
      rcases mem_concat.mp hj with hj | rfl
      · exact h.known j hj hjpos
      · exact absurd hjpos hpos
    · intro v hv
      obtain ⟨j, hj, hjpos, hjv⟩ := h.onto v hv
      exact ⟨j, mem_concat.mpr (.inl hj), hjpos, hjv⟩
    · intro j hj hjpos v hv hlt
      rcases mem_concat.mp hj with hj | rfl
      · obtain ⟨k, hk, hkj, hkpos, hkv⟩ := h.first j hj hjpos v hv hlt
        exact ⟨k, mem_concat.mpr (.inl hk), hkj, hkpos, hkv⟩
      · exact absurd hjpos hpos

theorem inv_relabel (g : Graph n) (community : Fin n → Fin n) :
    (relabel g community).Inv g community (List.finRange n) := by
  have hrun : ∀ l : List (Fin n), l.Pairwise (· < ·) →
      (l.foldl (relabelStep g community) ⟨OrderedDict.empty, fun _ => -1⟩).Inv g community l := by
    intro l
    induction l using List.reverseRecOn with
    | nil =>
        intro _
        refine ⟨fun _ _ => rfl, fun _ _ => rfl, ?_, ?_, ?_, ?_, ?_⟩
        · exact fun i hi => absurd hi List.not_mem_nil
        · intro c v hv
          cases hv
        · intro c c' v hv
          cases hv
        · exact fun v hv => absurd hv (Nat.not_lt_zero v)
        · exact fun i hi => absurd hi List.not_mem_nil
    | append_singleton l i ih =>
        intro hl
        obtain ⟨hl, -, hlast⟩ := List.pairwise_append.mp hl
        rw [List.foldl_append]
        exact (ih hl).step fun j hj => hlast j hj i (List.mem_singleton_self i)
  exact hrun _ (List.pairwise_lt_finRange n)

/-- **What the labels are.** -/
theorem labelsOf_relabel {g : Graph n} (hg : g.Consistent) (community : Fin n → Fin n) :
    LabelsOf g community (relabel g community).result := by
  have h := inv_relabel g community
  have hpos : ∀ i, g.strengths i ≠ 0 → 0 < g.strengths i :=
    fun i hi => lt_of_le_of_ne (hg.strengths_nonneg i) (Ne.symm hi)
  have hknown : ∀ i, g.strengths i ≠ 0 → ∃ v, (relabel g community).idMap.get? (community i) = some v ∧
      (relabel g community).result i = v := fun i hi => h.known i (List.mem_finRange i) (hpos i hi)
  refine ⟨?_, ?_, ⟨(relabel g community).idMap.size, ?_⟩, ?_⟩
  · intro i
    constructor
    · intro hi
      by_contra hne
      obtain ⟨v, -, hv⟩ := hknown i hne
      omega
    · intro hi
      exact h.isolated i (by rw [hi]; exact lt_irrefl 0)
  · intro i j hi hj
    obtain ⟨v, hget, hv⟩ := hknown i hi
    obtain ⟨w, hget', hw⟩ := hknown j hj
    constructor
    · intro heq
      have hvw : v = w := by omega
      rw [hvw] at hget
      exact h.inj _ _ w hget hget'
    · intro heq
      rw [heq, hget'] at hget
      cases hget
      rw [hv, hw]
  · intro v
    constructor
    · rintro ⟨hv, hlt⟩
      obtain ⟨i, -, hi, hiv⟩ := h.onto v.toNat (by omega)
      exact ⟨i, ne_of_gt hi, by rw [hiv]; omega⟩
    · rintro ⟨i, hi, rfl⟩
      obtain ⟨v, hget, hv⟩ := hknown i hi
      have hbound := h.bound _ _ hget
      omega
  · intro i hi v hv hlt
    obtain ⟨j, -, hji, hjpos, hjv⟩ := h.first i (List.mem_finRange i) (hpos i hi) v hv hlt
    exact ⟨j, hji, ne_of_gt hjpos, hjv⟩

/-- Without weight all labels are -1. -/
theorem labelsOf_isolated {g : Graph n} (hg : g.Consistent) (hm : g.m = 0) (community : Fin n → Fin n) :
    LabelsOf g community fun _ => -1 where
  isolated := fun i => iff_of_true rfl (hg.strengths_zero hm i)
  same := fun i _ hi => absurd (hg.strengths_zero hm i) hi
  compact := by
    refine ⟨0, fun v => iff_of_false (fun hv => ?_) ?_⟩
    · omega
    · rintro ⟨i, hi, -⟩
      exact hi (hg.strengths_zero hm i)
  first := fun i hi => absurd (hg.strengths_zero hm i) hi

/-- The graph of the edges. -/
def EdgeList.graph (l : EdgeList) (n : ℕ) : Graph n := Graph.build n l.edges

/-- The state after some visits. -/
def EdgeList.state (l : EdgeList) (n : ℕ) (resolution : ℚ) (order : IterationOrder n) (visits : List (Fin n)) :
    Partition n := Runs.run (visit (l.graph n) resolution order) (Partition.init (l.graph n)) visits

/-- The modularity of the communities of a state. -/
def EdgeList.modularity (l : EdgeList) (n : ℕ) (resolution : ℚ) (s : Partition n) : ℚ :=
  Modularity.modularity (l.graph n).weight (l.graph n).strengths (l.graph n).m resolution s.community

/-- What holds of every state and every visit from it. -/
structure StateSound (l : EdgeList) (n : ℕ) (resolution : ℚ) (order : IterationOrder n) (s : Partition n) :
    Prop where
  sigmaTot : SigmaTot (l.graph n) s
  improves : ∀ i, l.modularity n resolution s ≤ l.modularity n resolution (visit (l.graph n) resolution order s i)
  unordered : ∀ (i : Fin n) (items : List (Fin n × ℚ)), items.Perm (kIn (l.graph n) s.community i).items →
    choose (l.graph n) resolution s i items =
      choose (l.graph n) resolution s i (kIn (l.graph n) s.community i).items
  chosen : ∀ i, (l.graph n).strengths i ≠ 0 → (visit (l.graph n) resolution order s i).community =
    Function.update s.community i (choose (l.graph n) resolution s i (kIn (l.graph n) s.community i).items).2

/-- **Community detection does what it promises.**  In every state of a run, `sigma_tot` is the strength of
each community, a visit does not decrease the modularity, its choice does not depend on the order of the map,
and the node moves to the chosen community; a run makes whole passes, its result does not depend on the
orders, and its labels number the communities. -/
theorem communities_exact (n : ℕ) (l : EdgeList) (resolution : ℚ) (maxIter : ℕ) (order : IterationOrder n) :
    (∀ visits, StateSound l n resolution order (l.state n resolution order visits)) ∧
    (∃ k ≤ maxIter, finalPartition (l.graph n) resolution order maxIter =
      l.state n resolution order (List.replicate k (List.finRange n)).flatten) ∧
    detectCommunities n l.edges resolution maxIter order =
      detectCommunities n l.edges resolution maxIter insertionOrder ∧
    ∃ labels : Fin n → ℤ, detectCommunities n l.edges resolution maxIter order = List.ofFn labels ∧
      LabelsOf (l.graph n) (finalPartition (l.graph n) resolution order maxIter).community labels := by
  have hg : (l.graph n).Consistent := Graph.consistent_build l.nonneg
  refine ⟨?_, exists_passes _ _ _ _ _, ?_, ?_⟩
  · intro visits
    have hsigma := sigmaTot_run (l.graph n) resolution order visits
    refine ⟨hsigma, fun i => modularity_le_visit hg (weight_symm l) hsigma i,
      fun i items h => choose_perm _ _ _ _ h, fun i hi => ?_⟩
    unfold visit
    rw [if_neg hi, choose_perm _ _ _ _ (order.perm _ i _)]
  · unfold detectCommunities
    simp only [finalPartition_order _ _ order insertionOrder]
  · unfold detectCommunities
    by_cases hn : n = 0
    · subst hn
      refine ⟨fun i => i.elim0, rfl, fun i => i.elim0, fun i => i.elim0, ⟨0, fun v => ?_⟩, fun i => i.elim0⟩
      refine iff_of_false (fun hv => by omega) ?_
      rintro ⟨i, -⟩
      exact i.elim0
    · by_cases hm : (l.graph n).m = 0
      · refine ⟨fun _ => -1, ?_, labelsOf_isolated hg hm _⟩
        rw [if_neg hn, List.ofFn_const]
        exact if_pos hm
      · refine ⟨_, ?_, labelsOf_relabel hg _⟩
        rw [if_neg hn]
        exact if_neg hm

/-- Two nodes and the edge between them. -/
def oneEdge : EdgeList where
  edges := [(0, 1, 1), (1, 0, 1)]
  symmetric := .swap _ _ _
  nonneg := by
    intro e he
    rcases List.mem_pair.mp he with rfl | rfl
    · exact zero_le_one
    · exact zero_le_one

example : detectCommunities 3 oneEdge.edges 1 2 insertionOrder = [0, 0, -1] := by decide +kernel

end Communities

end Khora
