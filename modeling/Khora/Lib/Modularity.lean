import Mathlib.Algebra.BigOperators.Group.Finset.Basic
import Mathlib.Algebra.BigOperators.Ring.Finset
import Mathlib.Algebra.Field.Basic
import Mathlib.Data.Fintype.BigOperators
import Mathlib.Tactic.FieldSimp
import Mathlib.Tactic.Ring

/-!
# Modularity of a partition

Nodes with symmetric weights between them, partitioned by a function to communities.

* `pairSum_split` — a sum over the pairs within communities, with one node taken apart.
* `modularity_update` — moving a node changes the modularity by the difference of two gains.
-/

namespace Modularity

variable {ι κ K : Type*} [Fintype ι] [DecidableEq ι] [DecidableEq κ] [Field K]

/-! ## Sums over pairs within communities -/

/-- The sum over all pairs in one community. -/
def pairSum (f : ι → ι → K) (c : ι → κ) : K := ∑ a, ∑ b, if c a = c b then f a b else 0

/-- The sum over the pairs of a node with the others of a community. -/
def sumInto (f : ι → K) (c : ι → κ) (i : ι) (d : κ) : K := ∑ j ∈ Finset.univ.erase i, if c j = d then f j else 0

/-- A sum over all nodes, with one taken apart. -/
theorem sum_eq_add_erase (f : ι → K) (i : ι) : ∑ a, f a = f i + ∑ a ∈ Finset.univ.erase i, f a :=
  (Finset.add_sum_erase _ f (Finset.mem_univ i)).symm

/-- **One node taken apart**: its pair with itself, its pairs with the others, and the pairs of the
others. -/
theorem pairSum_split {f : ι → ι → K} (hsymm : ∀ a b, f a b = f b a) (c : ι → κ) (i : ι) :
    pairSum f c = f i i + 2 * sumInto (f i) c i (c i) +
      ∑ a ∈ Finset.univ.erase i, ∑ b ∈ Finset.univ.erase i, if c a = c b then f a b else 0 := by
  have hrow : ∀ a, (∑ b, if c a = c b then f a b else 0) =
      (if c a = c i then f a i else 0) + ∑ b ∈ Finset.univ.erase i, if c a = c b then f a b else 0 :=
    fun a => sum_eq_add_erase _ i
  have hturn : ∀ a, (if c i = c a then f i a else 0) = if c a = c i then f i a else 0 := by
    intro a
    by_cases h : c a = c i
    · rw [if_pos h, if_pos h.symm]
    · rw [if_neg h, if_neg fun h' => h h'.symm]
  have hcolumn : ∀ a, (if c a = c i then f a i else 0) = if c a = c i then f i a else 0 := by
    intro a
    rw [hsymm a i]
  unfold pairSum sumInto
  rw [sum_eq_add_erase _ i, hrow i, if_pos rfl, Finset.sum_congr rfl fun a _ => hrow a,
    Finset.sum_add_distrib, Finset.sum_congr rfl fun a _ => hturn a,
    Finset.sum_congr rfl fun a _ => hcolumn a]
  ring

theorem sumInto_update (f : ι → K) (c : ι → κ) (i : ι) (d e : κ) :
    sumInto f (Function.update c i d) i e = sumInto f c i e := by
  apply Finset.sum_congr rfl
  intro j hj
  rw [Function.update_of_ne (Finset.ne_of_mem_erase hj)]

/-- Moving a node changes only its pairs with the others. -/
theorem pairSum_update {f : ι → ι → K} (hsymm : ∀ a b, f a b = f b a) (c : ι → κ) (i : ι) (d : κ) :
    pairSum f (Function.update c i d) - pairSum f c =
      2 * sumInto (f i) c i d - 2 * sumInto (f i) c i (c i) := by
  have hothers : ∀ a ∈ Finset.univ.erase i, (∑ b ∈ Finset.univ.erase i,
      if Function.update c i d a = Function.update c i d b then f a b else 0) =
        ∑ b ∈ Finset.univ.erase i, if c a = c b then f a b else 0 := by
    intro a ha
    apply Finset.sum_congr rfl
    intro b hb
    rw [Function.update_of_ne (Finset.ne_of_mem_erase ha), Function.update_of_ne (Finset.ne_of_mem_erase hb)]
  rw [pairSum_split hsymm _ i, pairSum_split hsymm c i, Function.update_self, sumInto_update,
    Finset.sum_congr rfl hothers]
  ring

theorem sumInto_sub (f g : ι → K) (c : ι → κ) (i : ι) (d : κ) :
    sumInto (fun j => f j - g j) c i d = sumInto f c i d - sumInto g c i d := by
  unfold sumInto
  rw [← Finset.sum_sub_distrib]
  apply Finset.sum_congr rfl
  intro j _
  split
  · rfl
  · exact (sub_zero 0).symm

theorem sumInto_mul (k : K) (f : ι → K) (c : ι → κ) (i : ι) (d : κ) :
    sumInto (fun j => k * f j) c i d = k * sumInto f c i d := by
  unfold sumInto
  rw [Finset.mul_sum]
  apply Finset.sum_congr rfl
  intro j _
  split
  · rfl
  · exact (mul_zero k).symm

/-! ## Modularity -/

variable (weight : ι → ι → K) (strength : ι → K) (m resolution : K)

/-- The modularity of the partition `c`, for a graph of weight `m`. -/
def modularity (c : ι → κ) : K :=
  pairSum (fun a b => weight a b / (2 * m) - resolution * (strength a * strength b) / (2 * m) ^ 2) c

/-- What the node `i` gains in the community `d`. -/
def gain (c : ι → κ) (i : ι) (d : κ) : K :=
  sumInto (weight i) c i d / m - resolution * sumInto strength c i d * strength i / (2 * m * m)

variable {weight strength m resolution} [NeZero (2 : K)]

/-- **Moving a node changes the modularity by the difference of the gains.** -/
theorem modularity_update (hsymm : ∀ a b, weight a b = weight b a) (hm : m ≠ 0) (c : ι → κ) (i : ι) (d : κ) :
    modularity weight strength m resolution (Function.update c i d) -
        modularity weight strength m resolution c =
      gain weight strength m resolution c i d - gain weight strength m resolution c i (c i) := by
  have htwo : (2 : K) ≠ 0 := NeZero.ne 2
  have hpair : ∀ e, 2 * sumInto (fun b => weight i b / (2 * m) -
      resolution * (strength i * strength b) / (2 * m) ^ 2) c i e =
        gain weight strength m resolution c i e := by
    intro e
    have hform : (fun b => weight i b / (2 * m) - resolution * (strength i * strength b) / (2 * m) ^ 2) =
        fun b => (1 / (2 * m)) * weight i b - (resolution * strength i / (2 * m) ^ 2) * strength b := by
      funext b
      ring
    rw [hform, sumInto_sub, sumInto_mul, sumInto_mul]
    unfold gain
    field_simp
  unfold modularity
  rw [pairSum_update, hpair, hpair]
  intro a b
  rw [hsymm a b, mul_comm (strength a)]

end Modularity
