import Khora.Lib.Greedy
import Mathlib.Algebra.Ring.Defs
import Mathlib.Data.List.Nodup
import Mathlib.Data.List.Perm.Subperm
import Mathlib.Order.WithBot

/-!
# Maximal marginal relevance

`mmr_diversity_select` picks candidates of high relevance and low similarity to the picked ones. It keeps, for
each candidate, the greatest similarity to the selection so far, in the Rust kernel as in the two Python
fallbacks.

* `select_eq_greedy` — the running maximum gives the selection of the greedy definition.
* `mmrDiversitySelect_greedy` — all three select, place by place, the first candidate of greatest marginal
  relevance.
-/

namespace Khora

namespace Mmr

variable {F : Type} [CommRing F] [LinearOrder F]

/-! ## The program -/

/-- A candidate; the rows of an embedding matrix have one width. -/
structure Candidate (F : Type) (dim : ℕ) where
  score : F
  embedding : List F
  width : embedding.length = dim

/-- The dot product of two rows. -/
def dot (a b : List F) : F := (List.zipWith (· * ·) a b).sum

/-- The arrays of the loop, by index, and the selection. -/
structure State (F : Type) where
  available : ℕ → Bool
  selected : List ℕ
  maxSim : ℕ → WithBot F

/-- `0.0 if not selected else max(0.0, max_sim[i])` -/
def simToSelected (s : State F) (i : ℕ) : F :=
  if s.selected = [] then 0 else max 0 ((s.maxSim i).unbotD 0)

/-- `lambda_param * scores[i] - one_minus_lambda * sim_to_sel` -/
def mmr (lambda : F) (scores : List F) (s : State F) (i : ℕ) : F :=
  lambda * scores.getD i 0 - (1 - lambda) * simToSelected s i

/-- The scan for the best candidate, with its value; there is none before the first available one. -/
def scanBest (lambda : F) (scores : List F) (n : ℕ) (s : State F) : Option (ℕ × F) :=
  (List.range n).foldl (fun best i =>
    if s.available i then
      match best with
      | none => some (i, mmr lambda scores s i)
      | some b => if b.2 < mmr lambda scores s i then some (i, mmr lambda scores s i) else some b
    else best) none

/-- A candidate is taken: `update` is what becomes of the running maximum of the others, given the number of
selected ones and the new similarity. -/
def takeBest (sim : ℕ → ℕ → F) (update : ℕ → WithBot F → F → WithBot F) (s : State F) (best : ℕ) : State F where
  available i := decide (i ≠ best) && s.available i
  selected := s.selected ++ [best]
  maxSim i :=
    if decide (i ≠ best) && s.available i then update (s.selected.length + 1) (s.maxSim i) (sim best i)
    else s.maxSim i

def start : State F := ⟨fun _ => true, [], fun _ => ⊥⟩

/-- `for _ in range(k)` -/
def selectLoop (sim : ℕ → ℕ → F) (update : ℕ → WithBot F → F → WithBot F) (lambda : F) (scores : List F) (n : ℕ) :
    ℕ → State F → State F
  | 0, s => s
  | k + 1, s =>
      match scanBest lambda scores n s with
      | none => s
      | some best => selectLoop sim update lambda scores n k (takeBest sim update s best.1)

/-- `if dot > max_sim[i]: max_sim[i] = dot` -/
def raiseMax (m : WithBot F) (d : F) : WithBot F := if m < (d : WithBot F) then d else m

/-- The pure Python fallback. -/
def pythonSelect (embeddings : List (List F)) (scores : List F) (lambda : F) (k : ℕ) : List ℕ :=
  let n := embeddings.length
  if n = 0 ∨ k = 0 then []
  else (selectLoop (fun best i => dot (embeddings.getD best []) (embeddings.getD i [])) (fun _ => raiseMax) lambda
    scores n (min k n) start).selected

/-- The NumPy fallback: `dots = mat @ mat[best_idx]`. -/
def numpySelect (embeddings : List (List F)) (scores : List F) (lambda : F) (k : ℕ) : List ℕ :=
  let n := embeddings.length
  if n = 0 ∨ k = 0 then []
  else (selectLoop (fun best i => dot (embeddings.getD i []) (embeddings.getD best [])) (fun _ => raiseMax) lambda
    scores n (min k n) start).selected

/-- `&flat[i * dim..i * dim + dim]` -/
def flatRow (flat : List F) (dim i : ℕ) : List F := (flat.drop (i * dim)).take dim

/-- The update of the kernel, which sets the maximum at the first selection. -/
def rustUpdate (count : ℕ) (m : WithBot F) (d : F) : WithBot F := if count = 1 then d else raiseMax m d

/-- The Rust kernel, over the flat buffer of the matrix. -/
def rustSelect (dim : ℕ) (embeddings : List (List F)) (scores : List F) (lambda : F) (k : ℕ) :
    Except String (List ℕ) :=
  if scores.length ≠ embeddings.length then
    .error s!"scores length {scores.length} does not match embeddings rows {embeddings.length}"
  else
    let n := embeddings.length
    let flat := embeddings.flatten
    .ok <| if n = 0 ∨ k = 0 then []
      else (selectLoop (fun best i => dot (flatRow flat dim best) (flatRow flat dim i)) rustUpdate lambda scores n
        (min k n) start).selected

/-! ## The greedy definition -/

/-- The greatest similarity to the selected candidates. -/
def maxSimilarity (sim : ℕ → ℕ → F) (selected : List ℕ) (i : ℕ) : WithBot F :=
  (selected.map fun s => (sim s i : WithBot F)).foldl max ⊥

/-- The marginal relevance of a candidate; nothing is similar to an empty selection. -/
def marginal (sim : ℕ → ℕ → F) (lambda : F) (scores : List F) (selected : List ℕ) (i : ℕ) : F :=
  lambda * scores.getD i 0 - (1 - lambda) * max 0 ((maxSimilarity sim selected i).unbotD 0)

def unselected (n : ℕ) (selected : List ℕ) : List ℕ := (List.range n).filter fun i => decide (i ∉ selected)

/-- The first unselected candidate of greatest marginal relevance. -/
def pickMarginal (sim : ℕ → ℕ → F) (lambda : F) (scores : List F) (n : ℕ) (selected : List ℕ) : Option ℕ :=
  Greedy.firstMax (marginal sim lambda scores selected) (unselected n selected)

/-- The greedy selection, which computes the maxima afresh in every step. -/
def greedySelect (sim : ℕ → ℕ → F) (lambda : F) (scores : List F) (n k : ℕ) : List ℕ :=
  Greedy.greedy (pickMarginal sim lambda scores n) (min k n) []

/-- What the greedy selection is: each candidate that is selected was, when it was, the first unselected one of
greatest marginal relevance. -/
structure GreedySelection (sim : ℕ → ℕ → F) (lambda : F) (scores : List F) (n k : ℕ) (out : List ℕ) : Prop where
  length : out.length = min k n
  nodup : out.Nodup
  best : ∀ front i rest, out = front ++ i :: rest → i < n ∧ i ∉ front ∧ ∀ j < n, j ∉ front →
    marginal sim lambda scores front j ≤ marginal sim lambda scores front i ∧
      (marginal sim lambda scores front j = marginal sim lambda scores front i → i ≤ j)

/-! ## The running maximum -/

section Loop

variable {sim : ℕ → ℕ → F} {update : ℕ → WithBot F → F → WithBot F} {lambda : F} {scores : List F} {n : ℕ}

omit [CommRing F] in
theorem maxSimilarity_concat (sim : ℕ → ℕ → F) (selected : List ℕ) (best i : ℕ) :
    maxSimilarity sim (selected ++ [best]) i = max (maxSimilarity sim selected i) (sim best i) := by
  rw [maxSimilarity, List.map_append, List.foldl_append]
  rfl

/-- The scan is the search for the first of the greatest, among the available candidates. -/
theorem scanBest_eq (lambda : F) (scores : List F) (n : ℕ) (s : State F) :
    (scanBest lambda scores n s).map Prod.fst =
      Greedy.firstMax (mmr lambda scores s) ((List.range n).filter s.available) := by
  have hscan : scanBest lambda scores n s =
      (Greedy.firstMax (mmr lambda scores s) ((List.range n).filter s.available)).map
        fun i => (i, mmr lambda scores s i) := by
    unfold scanBest
    induction List.range n using List.reverseRecOn with
    | nil => rfl
    | append_singleton is i ih =>
        rw [List.foldl_append, ih, List.filter_append]
        by_cases havailable : s.available i = true
        · rw [List.filter_cons_of_pos havailable, List.filter_nil, Greedy.firstMax_concat]
          cases hbest : Greedy.firstMax (mmr lambda scores s) (is.filter s.available) with
          | none => simp [Greedy.better, havailable]
          | some b =>
              by_cases hlt : mmr lambda scores s b < mmr lambda scores s i
              · simp [Greedy.better, havailable, hlt]
              · simp [Greedy.better, havailable, hlt]
        · rw [Bool.not_eq_true] at havailable
          simp [havailable]
  rw [hscan, Option.map_map]
  exact Option.map_id'

/-- The arrays are in step with the selection. -/
structure InStep (sim : ℕ → ℕ → F) (picked : List ℕ) (s : State F) : Prop where
  selected : s.selected = picked
  available : ∀ i, s.available i = decide (i ∉ picked)
  maxSim : ∀ i, i ∉ picked → s.maxSim i = maxSimilarity sim picked i

omit [CommRing F] in
theorem inStep_start (sim : ℕ → ℕ → F) : InStep sim [] start := ⟨rfl, fun _ => rfl, fun _ _ => rfl⟩

theorem InStep.mmr_eq {selected : List ℕ} {s : State F} (h : InStep sim selected s) {i : ℕ} (hi : i ∉ selected) :
    mmr lambda scores s i = marginal sim lambda scores selected i := by
  rw [mmr, marginal, simToSelected, h.selected, h.maxSim i hi]
  split
  · rename_i hnil
    subst hnil
    rw [maxSimilarity, List.map_nil, List.foldl_nil, WithBot.unbotD_bot, max_self]
  · rfl

theorem InStep.scanBest_eq {selected : List ℕ} {s : State F} (h : InStep sim selected s) :
    (scanBest lambda scores n s).map Prod.fst = pickMarginal sim lambda scores n selected := by
  have havailable : (List.range n).filter s.available = unselected n selected :=
    List.filter_congr fun i _ => h.available i
  rw [Mmr.scanBest_eq, havailable]
  apply Greedy.firstMax_congr
  intro i hi
  exact h.mmr_eq (of_decide_eq_true (List.mem_filter.mp hi).2)

omit [CommRing F] in
/-- **A selected candidate raises the maxima of the others.** -/
theorem InStep.take (hupdate : ∀ count m d, (count = 1 → m = ⊥) → update count m d = max m (d : WithBot F))
    {selected : List ℕ} {s : State F} (h : InStep sim selected s) (best : ℕ) :
    InStep sim (selected ++ [best]) (takeBest sim update s best) where
  selected := by rw [takeBest, h.selected]
  available i := by
    have hiff : i ∉ selected ++ [best] ↔ i ≠ best ∧ i ∉ selected := by simp [not_or, and_comm]
    simp only [takeBest, h.available, hiff, Bool.decide_and]
  maxSim i hi := by
    obtain ⟨hselected, hne⟩ : i ∉ selected ∧ i ≠ best := by simpa using hi
    have hfirst : s.selected.length + 1 = 1 → s.maxSim i = ⊥ := by
      intro hlen
      have hnil : selected = [] := by
        rw [← h.selected]
        exact List.length_eq_zero_iff.mp (by omega)
      rw [h.maxSim i hselected, hnil]
      rfl
    have htaken : (decide (i ≠ best) && s.available i) = true := by
      rw [h.available, decide_eq_true hne, decide_eq_true hselected, Bool.true_and]
    show (if (decide (i ≠ best) && s.available i) = true then _ else _) = _
    rw [if_pos htaken, hupdate _ _ _ hfirst, h.maxSim i hselected, maxSimilarity_concat]

theorem selectLoop_eq (k : ℕ) : ∀ s : State F, (selectLoop sim update lambda scores n k s).selected =
    Greedy.greedyWith (fun s => (scanBest lambda scores n s).map Prod.fst) (takeBest sim update) k s.selected s := by
  induction k with
  | zero => exact fun _ => rfl
  | succ k ih =>
      intro s
      rw [selectLoop, Greedy.greedyWith]
      cases hbest : scanBest lambda scores n s with
      | none => rfl
      | some best => exact ih (takeBest sim update s best.1)

/-- **The loop with the running maximum selects what the greedy definition does.** -/
theorem select_eq_greedy (hupdate : ∀ count m d, (count = 1 → m = ⊥) → update count m d = max m (d : WithBot F))
    (k : ℕ) : (selectLoop sim update lambda scores n (min k n) start).selected =
      greedySelect sim lambda scores n k := by
  rw [selectLoop_eq]
  have hpick : ∀ selected s, InStep sim selected s →
      (scanBest lambda scores n s).map Prod.fst = pickMarginal sim lambda scores n selected :=
    fun _ _ h => h.scanBest_eq
  exact Greedy.greedy_of_summary hpick (fun _ _ best h _ => h.take hupdate best) _ (inStep_start sim)

omit [CommRing F] in
theorem raiseMax_eq_max (m : WithBot F) (d : F) : raiseMax m d = max m d := by
  rw [raiseMax, max_def_lt]

omit [CommRing F] in
theorem rustUpdate_eq_max (count : ℕ) (m : WithBot F) (d : F) (h : count = 1 → m = ⊥) :
    rustUpdate count m d = max m d := by
  rw [rustUpdate]
  split
  · rename_i hone
    rw [h hone]
    exact (max_eq_right bot_le).symm
  · exact raiseMax_eq_max m d

end Loop

/-! ## The greedy selection -/

section Spec

variable {sim : ℕ → ℕ → F} {lambda : F} {scores : List F} {n : ℕ}

theorem mem_unselected {selected : List ℕ} {i : ℕ} : i ∈ unselected n selected ↔ i < n ∧ i ∉ selected := by
  rw [unselected, List.mem_filter, List.mem_range, decide_eq_true_iff]

/-- While fewer than all are selected there is another candidate. -/
theorem pickMarginal_ne_none {selected : List ℕ} (h : selected.length < n) :
    pickMarginal sim lambda scores n selected ≠ none := by
  rw [pickMarginal, Ne, Greedy.firstMax_eq_none]
  intro hnil
  have hsub : List.range n ⊆ selected := by
    intro i hi
    by_contra hnot
    have hmem : i ∈ unselected n selected := mem_unselected.mpr ⟨List.mem_range.mp hi, hnot⟩
    rw [hnil] at hmem
    cases hmem
  have hle := (List.subperm_of_subset List.nodup_range hsub).length_le
  rw [List.length_range] at hle
  omega

theorem greedySelection_greedySelect (sim : ℕ → ℕ → F) (lambda : F) (scores : List F) (n k : ℕ) :
    GreedySelection sim lambda scores n k (greedySelect sim lambda scores n k) := by
  obtain ⟨out, hout, -, hpicks⟩ := @Greedy.mem_picks ℕ (pickMarginal sim lambda scores n) (min k n) []
  rw [List.nil_append] at hout
  have hbest : ∀ front i rest, out = front ++ i :: rest → i < n ∧ i ∉ front ∧ ∀ j < n, j ∉ front →
      marginal sim lambda scores front j ≤ marginal sim lambda scores front i ∧
        (marginal sim lambda scores front j = marginal sim lambda scores front i → i ≤ j) := by
    intro front i rest heq
    have hpick := hpicks front i rest heq
    rw [List.nil_append] at hpick
    obtain ⟨hmem, hmax⟩ := Greedy.firstMax_le (List.pairwise_lt_range.filter _) hpick
    obtain ⟨hlt, hnot⟩ := mem_unselected.mp hmem
    exact ⟨hlt, hnot, fun j hj hfront => hmax j (mem_unselected.mpr ⟨hj, hfront⟩)⟩
  have hlength : (Greedy.greedy (pickMarginal sim lambda scores n) (min k n) []).length = 0 + min k n :=
    Greedy.length_greedy (fun selected h => pickMarginal_ne_none h) _ _ (by simp)
  rw [greedySelect, hout]
  refine ⟨by rw [← hout, hlength, Nat.zero_add], ?_, hbest⟩
  · have hnodup : ∀ more front : List ℕ, out = front ++ more → front.Nodup → out.Nodup := by
      intro more
      induction more with
      | nil => exact fun front heq hfront => by rw [heq, List.append_nil]; exact hfront
      | cons i more ih =>
          intro front heq hfront
          refine ih (front ++ [i]) (by rw [heq, List.append_assoc]; rfl) ?_
          exact List.nodup_append.mpr ⟨hfront, List.nodup_singleton i, fun a ha b hb heq' =>
            (hbest front i more heq).2.1 (List.mem_singleton.mp hb ▸ heq' ▸ ha)⟩
    exact hnodup out [] rfl List.nodup_nil

end Spec

/-! ## The three implementations -/

omit [LinearOrder F] in
theorem dot_comm (a b : List F) : dot a b = dot b a := by
  rw [dot, dot, List.zipWith_comm]
  simp only [mul_comm]

omit [CommRing F] [LinearOrder F] in
/-- The slice of the flat buffer is the row of the matrix. -/
theorem flatRow_flatten {dim : ℕ} {rows : List (List F)} (h : ∀ row ∈ rows, row.length = dim) (i : ℕ) :
    flatRow rows.flatten dim i = rows.getD i [] := by
  unfold flatRow
  induction rows generalizing i with
  | nil => simp
  | cons row rows ih =>
      obtain ⟨hrow, hrows⟩ := List.forall_mem_cons.mp h
      cases i with
      | zero => simp [← hrow]
      | succ i =>
          have hdrop : (i + 1) * dim = row.length + i * dim := by rw [Nat.succ_mul, hrow, Nat.add_comm]
          rw [List.flatten_cons, hdrop, ← List.drop_drop, List.drop_left, ih hrows i]
          rfl

/-- **Every implementation selects greedily.** -/
theorem mmrDiversitySelect_greedy {dim : ℕ} (candidates : List (Candidate F dim)) (lambda : F) (k : ℕ) :
    let embeddings := candidates.map Candidate.embedding
    let scores := candidates.map Candidate.score
    let sim := fun s i => dot (embeddings.getD s []) (embeddings.getD i [])
    let selected := greedySelect sim lambda scores candidates.length k
    pythonSelect embeddings scores lambda k = selected ∧ numpySelect embeddings scores lambda k = selected ∧
      rustSelect dim embeddings scores lambda k = .ok selected ∧
      GreedySelection sim lambda scores candidates.length k selected := by
  intro embeddings scores sim selected
  have hlength : embeddings.length = candidates.length := List.length_map _
  have hscores : scores.length = candidates.length := List.length_map _
  have hrows : ∀ row ∈ embeddings, row.length = dim := by
    intro row hrow
    obtain ⟨c, -, rfl⟩ := List.mem_map.mp hrow
    exact c.width
  have hnone : candidates.length = 0 ∨ k = 0 → selected = [] := by
    intro h
    have hlen := (greedySelection_greedySelect sim lambda scores candidates.length k).length
    refine List.length_eq_zero_iff.mp (hlen.trans ?_)
    omega
  refine ⟨?_, ?_, ?_, greedySelection_greedySelect sim lambda scores candidates.length k⟩
  · rw [pythonSelect, hlength]
    split
    · exact (hnone ‹_›).symm
    · exact select_eq_greedy (fun count m d _ => raiseMax_eq_max m d) k
  · rw [numpySelect, hlength]
    split
    · exact (hnone ‹_›).symm
    · simp only [dot_comm (embeddings.getD _ []) (embeddings.getD _ [])]
      exact select_eq_greedy (fun count m d _ => raiseMax_eq_max m d) k
  · rw [rustSelect, if_neg (not_not.mpr (hscores.trans hlength.symm))]
    simp only [hlength, flatRow_flatten hrows]
    split
    · rw [hnone ‹_›]
    · rw [select_eq_greedy rustUpdate_eq_max k]

end Mmr

end Khora
