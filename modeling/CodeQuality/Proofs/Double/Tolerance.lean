import CodeQuality.Proofs.Double.Absorption
import CodeQuality.Proofs.Double.Scale

/-!
The tolerance around one.

Whether a number is within `1e-9` of one is asked of a rounded difference and of the double that
is nearest to `1e-9`. The answer is still the exact one: from one half on doubles are whole numbers
of units of `2 ^ -53`, so that the difference is exact where it is small, and none lies between
`1e-9` and its double.
-/

namespace CodeQuality.Double

variable {x : Float} {r : ℝ}

theorem le_spacing_of_half_le (hr : 1 / 2 ≤ r) : -53 ≤ spacing r := by
  have hhalf : (1 / 2 : ℝ) = ((2 : ℕ) : ℝ) ^ (-1 : ℤ) := by norm_num
  have hlog : Int.log 2 (((2 : ℕ) : ℝ) ^ (-1 : ℤ)) ≤ Int.log 2 r :=
    Int.log_mono_right (by positivity) (hhalf ▸ hr)
  rw [Int.log_zpow (by norm_num)] at hlog
  unfold spacing
  omega

theorem Denotes.exists_units_of_half_le (h : Denotes x r) (hr : 1 / 2 ≤ r) :
    ∃ k : ℕ, r = k * 2 ^ (-53 : ℤ) := by
  have hself : roundMagnitude r = r := roundMagnitude_eq_of_nearest_eq (by linarith) h.nearest_eq
  have hspacing := le_spacing_of_half_le hr
  obtain ⟨j, hj⟩ := Int.eq_ofNat_of_zero_le (show 0 ≤ spacing r + 53 by omega)
  refine ⟨nearestEven (r / 2 ^ spacing r) * 2 ^ j, ?_⟩
  calc r = nearestEven (r / 2 ^ spacing r) * 2 ^ spacing r := hself.symm
    _ = ((nearestEven (r / 2 ^ spacing r) * 2 ^ j : ℕ) : ℝ) * 2 ^ (-53 : ℤ) := by
      rw [Nat.cast_mul, mul_assoc, natCast_two_pow_mul_zpow]
      congr 2
      omega

theorem denotes_tolerance : Denotes 1e-9 (((4835703278458517 : ℕ) : ℝ) * 2 ^ (-82 : ℤ) : ℝ) := by
  have hparts : Binary64.ofFloat? 1e-9 = some ⟨false, 4835703278458517, -82⟩ := by decide
  exact Binary64.denotes_of_ofFloat? hparts

/-- In units of `2 ^ -53` both bounds lie between the same two whole numbers. -/
theorem tolerance_lt_units_iff (j : ℕ) :
    ((4835703278458517 : ℕ) : ℝ) * 2 ^ (-82 : ℤ) < j * 2 ^ (-53 : ℤ) ↔
      1 / 10 ^ 9 < (j : ℝ) * 2 ^ (-53 : ℤ) := by
  have hleft : ((4835703278458517 : ℕ) : ℝ) * 2 ^ (-82 : ℤ) < j * 2 ^ (-53 : ℤ) ↔
      4835703278458517 < j * 2 ^ 29 := by
    have hunit : (j : ℝ) * 2 ^ (-53 : ℤ) = ((j * 2 ^ 29 : ℕ) : ℝ) * 2 ^ (-82 : ℤ) := by
      rw [Nat.cast_mul, mul_assoc, natCast_two_pow_mul_zpow]
      norm_num
    rw [hunit, mul_lt_mul_iff_left₀ (two_zpow_pos _), Nat.cast_lt]
  have hright : 1 / 10 ^ 9 < (j : ℝ) * 2 ^ (-53 : ℤ) ↔ 2 ^ 53 < j * 10 ^ 9 := by
    have hunit : (j : ℝ) * 2 ^ (-53 : ℤ) = j / 2 ^ 53 := by
      rw [zpow_neg, div_eq_mul_inv]
      norm_cast
    rw [hunit, div_lt_div_iff₀ (by norm_num) (by norm_num), one_mul]
    norm_cast
  rw [hleft, hright]
  omega

/-! ## Distances from one -/

/-- The distance as doubles compute it. -/
theorem Denotes.abs_sub_one (h : Denotes x r) (hr₀ : 0 ≤ r) (hr : r ≤ 100) :
    Denotes (x - 1.0).abs ((roundMagnitude |r - 1| : ℝ) : EReal) := by
  have hsmall : |r - 1| ≤ 100 := abs_le.mpr ⟨by linarith, by linarith⟩
  have hdifference := h.sub denotes_one (not_cancels_of_coe_left _ _)
  have hround : nearest ((r : EReal) - 1) = ((roundReal (r - 1) : ℝ) : EReal) := by
    rw [← EReal.coe_one, ← EReal.coe_sub, nearest_coe]
    apply overflow_of_abs_lt
    rw [abs_roundReal]
    exact (roundMagnitude_le_hundred (abs_nonneg _) hsmall).trans_lt isMagnitude_hundred.lt_limit
  rw [hround] at hdifference
  exact abs_roundReal (r - 1) ▸ hdifference.abs

theorem abs_units_sub_one (k : ℕ) :
    |(k : ℝ) * 2 ^ (-53 : ℤ) - 1| = (((k : ℤ) - 2 ^ 53).natAbs : ℝ) * 2 ^ (-53 : ℤ) := by
  have hone : (1 : ℝ) = ((2 ^ 53 : ℕ) : ℝ) * 2 ^ (-53 : ℤ) := by
    rw [natCast_two_pow_mul_zpow]
    norm_num
  rw [hone, ← sub_mul, abs_mul, abs_of_pos (two_zpow_pos (-53)), Nat.cast_natAbs]
  push_cast
  rfl

theorem half_le_roundMagnitude (hr : 1 / 2 ≤ r) : 1 / 2 ≤ roundMagnitude r := by
  have hhalf : roundMagnitude (1 / 2) = 1 / 2 := by
    have hself := roundMagnitude_eq_self (n := 1) (e := -1) (by norm_num) (by norm_num)
    norm_num at hself ⊢
    exact hself
  rw [← hhalf]
  exact roundMagnitude_mono (by norm_num) hr

/-- Comparing with the tolerance in doubles is comparing with it exactly. -/
theorem Denotes.tolerance_lt_iff (h : Denotes x r) (hr₀ : 0 ≤ r) (hr : r ≤ 100) :
    1e-9 < (x - 1.0).abs ↔ 1e-9 < |r - 1| := by
  have hexact : (1e-9 : ℝ) = 1 / 10 ^ 9 := by norm_num
  rw [hexact, denotes_tolerance.coe_lt_iff (h.abs_sub_one hr₀ hr)]
  rcases le_or_gt (1 / 2) |r - 1| with hfar | hnear
  · -- Far from one both hold, however the distance is rounded.
    have hround := half_le_roundMagnitude hfar
    exact iff_of_true (lt_of_lt_of_le (by norm_num) hround) (lt_of_lt_of_le (by norm_num) hfar)
  · -- Near one the distance is a whole number of units, and so few that it is a double.
    obtain ⟨k, rfl⟩ := h.exists_units_of_half_le (by linarith [(abs_lt.mp hnear).1])
    rw [abs_units_sub_one] at hnear ⊢
    have hfew : ((k : ℤ) - 2 ^ 53).natAbs < 2 ^ 53 := by
      by_contra hmany
      have hlow : ((2 ^ 53 : ℕ) : ℝ) * 2 ^ (-53 : ℤ) ≤
          (((k : ℤ) - 2 ^ 53).natAbs : ℝ) * 2 ^ (-53 : ℤ) :=
        mul_le_mul_of_nonneg_right (Nat.cast_le.mpr (not_lt.mp hmany)) (two_zpow_pos _).le
      rw [natCast_two_pow_mul_zpow] at hlow
      norm_num at hlow hnear
      linarith
    rw [roundMagnitude_eq_self hfew (by norm_num)]
    exact tolerance_lt_units_iff _

end CodeQuality.Double
