import Mathlib.Algebra.Order.Floor.Ring
import Mathlib.Data.Int.Log
import Mathlib.Data.Rat.Floor
import Mathlib.Tactic.Linarith
import Mathlib.Tactic.NormNum
import Mathlib.Tactic.Ring

/-!
# Rounding to binary64

The double nearest to a rational number, ties to the even one, for numbers in the normal range:
53 significant bits, without overflow and without subnormal numbers.

* `nearest_mono` — rounding keeps the order.
-/

namespace Binary64

/-! ## Rounding to an integer -/

/-- The nearest integer, ties to the even one. -/
def roundEven (q : ℚ) : ℤ :=
  if q - ⌊q⌋ < 1 / 2 then ⌊q⌋
  else if 1 / 2 < q - ⌊q⌋ then ⌊q⌋ + 1
  else if ⌊q⌋ % 2 = 0 then ⌊q⌋ else ⌊q⌋ + 1

theorem floor_le_roundEven (q : ℚ) : ⌊q⌋ ≤ roundEven q := by
  unfold roundEven
  split
  · exact le_refl _
  · split
    · omega
    · split
      · exact le_refl _
      · omega

theorem roundEven_le_floor_add_one (q : ℚ) : roundEven q ≤ ⌊q⌋ + 1 := by
  unfold roundEven
  split
  · omega
  · split
    · exact le_refl _
    · split
      · omega
      · exact le_refl _

theorem roundEven_intCast (n : ℤ) : roundEven n = n := by
  unfold roundEven
  rw [Int.floor_intCast, if_pos]
  norm_num

theorem roundEven_mono {q r : ℚ} (h : q ≤ r) : roundEven q ≤ roundEven r := by
  rcases (Int.floor_mono h).lt_or_eq with hlt | heq
  · have hq := roundEven_le_floor_add_one q
    have hr := floor_le_roundEven r
    omega
  · -- in one unit interval the later number is rounded up if the earlier one is
    by_cases hup : roundEven r = ⌊r⌋
    · rw [hup]
      unfold roundEven at hup ⊢
      rw [heq]
      split
      · exact le_refl _
      · rename_i hq
        split
        · rename_i hq'
          have hr : ¬ r - ⌊r⌋ < 1 / 2 := by linarith
          have hr' : 1 / 2 < r - ⌊r⌋ := by linarith
          rw [if_neg hr, if_pos hr'] at hup
          omega
        · split
          · exact le_refl _
          · rename_i hodd
            have hr : ¬ r - ⌊r⌋ < 1 / 2 := by linarith
            rw [if_neg hr, if_neg hodd] at hup
            split at hup <;> omega
    · have hr := floor_le_roundEven r
      have hq := roundEven_le_floor_add_one q
      omega

/-! ## Rounding to a double -/

/-- The unit in the last place. -/
def ulp (q : ℚ) : ℚ := 2 ^ (Int.log 2 |q| - 52)

/-- The nearest double. -/
def nearest (q : ℚ) : ℚ :=
  if 0 ≤ q then roundEven (q / ulp q) * ulp q else -(roundEven (-q / ulp q) * ulp q)

theorem ulp_pos (q : ℚ) : 0 < ulp q := by
  unfold ulp
  exact zpow_pos zero_lt_two _

theorem ulp_neg (q : ℚ) : ulp (-q) = ulp q := by
  unfold ulp
  rw [abs_neg]

theorem nearest_of_nonneg {q : ℚ} (h : 0 ≤ q) : nearest q = roundEven (q / ulp q) * ulp q := if_pos h

theorem nearest_neg (q : ℚ) : nearest (-q) = -nearest q := by
  unfold nearest
  rcases lt_trichotomy q 0 with h | rfl | h
  · rw [if_pos (by linarith), if_neg (not_le.mpr h), ulp_neg, neg_neg]
  · norm_num [roundEven]
  · rw [if_neg (by linarith), if_pos h.le, ulp_neg, neg_neg]

theorem nearest_nonneg {q : ℚ} (h : 0 ≤ q) : 0 ≤ nearest q := by
  rw [nearest_of_nonneg h]
  apply mul_nonneg _ (ulp_pos q).le
  have hzero : roundEven 0 ≤ roundEven (q / ulp q) := roundEven_mono (div_nonneg h (ulp_pos q).le)
  have heq : roundEven 0 = 0 := by
    have := roundEven_intCast 0
    rwa [Int.cast_zero] at this
  rw [heq] at hzero
  exact_mod_cast hzero

theorem zpow_le_of_log {q : ℚ} (h : 0 < q) : (2 : ℚ) ^ Int.log 2 q ≤ q := by
  exact_mod_cast Int.zpow_log_le_self (b := 2) one_lt_two h

theorem lt_zpow_of_log (q : ℚ) : q < (2 : ℚ) ^ (Int.log 2 q + 1) := by
  exact_mod_cast Int.lt_zpow_succ_log_self (b := 2) one_lt_two q

theorem zpow_div_ulp {q : ℚ} (h : 0 < q) (k : ℕ) :
    (2 : ℚ) ^ (Int.log 2 q + k) / ulp q = ((2 ^ (52 + k) : ℤ) : ℚ) := by
  unfold ulp
  rw [abs_of_pos h, ← zpow_sub₀ (two_ne_zero), Int.cast_pow, Int.cast_ofNat, ← zpow_natCast]
  congr 1
  push_cast
  ring

theorem nearest_one : nearest 1 = 1 := by
  have hulp : ulp 1 = 2 ^ (-52 : ℤ) := by
    unfold ulp
    rw [abs_one, Int.log_one_right, zero_sub]
  have hround := roundEven_intCast (2 ^ 52)
  rw [nearest_of_nonneg zero_le_one, hulp, zpow_neg, one_div, inv_inv]
  norm_num at hround ⊢
  rw [hround]
  norm_num

/-- A positive number is rounded within its binade. -/
theorem nearest_binade {q : ℚ} (h : 0 < q) :
    (2 : ℚ) ^ Int.log 2 q ≤ nearest q ∧ nearest q ≤ (2 : ℚ) ^ (Int.log 2 q + 1) := by
  have hpos := ulp_pos q
  have hlow : ((2 ^ 52 : ℤ) : ℚ) ≤ q / ulp q := by
    have heq := zpow_div_ulp h 0
    rw [Nat.cast_zero, add_zero, Nat.add_zero] at heq
    rw [← heq]
    exact div_le_div_of_nonneg_right (zpow_le_of_log h) hpos.le
  have hhigh : q / ulp q ≤ ((2 ^ 53 : ℤ) : ℚ) := by
    have heq := zpow_div_ulp h 1
    rw [Nat.cast_one] at heq
    rw [← heq]
    exact div_le_div_of_nonneg_right (lt_zpow_of_log q).le hpos.le
  have hlow' := roundEven_mono hlow
  have hhigh' := roundEven_mono hhigh
  rw [roundEven_intCast] at hlow' hhigh'
  rw [nearest_of_nonneg h.le]
  constructor
  · have heq := zpow_div_ulp h 0
    rw [Nat.cast_zero, add_zero, Nat.add_zero, div_eq_iff hpos.ne'] at heq
    rw [heq]
    exact mul_le_mul_of_nonneg_right (by exact_mod_cast hlow') hpos.le
  · have heq := zpow_div_ulp h 1
    rw [Nat.cast_one, div_eq_iff hpos.ne'] at heq
    rw [heq]
    exact mul_le_mul_of_nonneg_right (by exact_mod_cast hhigh') hpos.le

theorem nearest_mono_of_pos {q r : ℚ} (hq : 0 < q) (h : q ≤ r) : nearest q ≤ nearest r := by
  have hr : 0 < r := lt_of_lt_of_le hq h
  rcases (Int.log_mono_right (b := 2) hq h).lt_or_eq with hlt | heq
  · calc nearest q ≤ (2 : ℚ) ^ (Int.log 2 q + 1) := (nearest_binade hq).2
      _ ≤ (2 : ℚ) ^ Int.log 2 r := zpow_le_zpow_right₀ one_le_two (by omega)
      _ ≤ nearest r := (nearest_binade hr).1
  · have hulp : ulp q = ulp r := by
      unfold ulp
      rw [abs_of_pos hq, abs_of_pos hr, heq]
    rw [nearest_of_nonneg hq.le, nearest_of_nonneg hr.le, hulp]
    have hmono := roundEven_mono (div_le_div_of_nonneg_right h (ulp_pos r).le)
    exact mul_le_mul_of_nonneg_right (by exact_mod_cast hmono) (ulp_pos r).le

/-- **Rounding keeps the order.** -/
theorem nearest_mono {q r : ℚ} (h : q ≤ r) : nearest q ≤ nearest r := by
  rcases lt_or_ge 0 q with hq | hq
  · exact nearest_mono_of_pos hq h
  · have hqneg : nearest q ≤ 0 := by
      have := nearest_nonneg (neg_nonneg.mpr hq)
      rw [nearest_neg] at this
      linarith
    rcases le_or_gt 0 r with hr | hr
    · exact hqneg.trans (nearest_nonneg hr)
    · have := nearest_mono_of_pos (neg_pos.mpr hr) (neg_le_neg h)
      rw [nearest_neg, nearest_neg] at this
      linarith

end Binary64
