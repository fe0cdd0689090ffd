import CodeQuality.Proofs.Double.Order
import CodeQuality.Proofs.Double.Roundoff

/-!
Rounding on the scale of scores.

Between 0 and 100 doubles lie so close that a rounding changes a number by very little, and limiting
a number to the scale does not spread numbers. So scores that are left over from one number after
different deductions differ by little more than the deductions.
-/

namespace CodeQuality.Double

/-- A number limited to the scale of scores. -/
noncomputable def onScale (t : ℝ) : ℝ := max 0 (min t (100 : ℕ))

theorem onScale_eq (t : ℝ) : onScale t = max 0 (min t 100) := by
  unfold onScale
  rw [Nat.cast_ofNat]

theorem abs_onScale_sub_le (s t : ℝ) : |onScale s - onScale t| ≤ |s - t| := by
  rw [onScale_eq, onScale_eq, max_comm, max_comm 0]
  refine (abs_max_sub_max_le_abs ..).trans ((abs_min_sub_min_le_max ..).trans ?_)
  rw [sub_self, abs_zero]
  exact max_le le_rfl (abs_nonneg _)

/-- The error of one rounding on the scale: half the distance of doubles just below 100. -/
noncomputable def scaleError : ℝ := 2 ^ (-47 : ℤ)

theorem abs_roundMagnitude_sub_le_scaleError {t : ℝ} (ht : 0 ≤ t) (h : t ≤ 100) :
    |roundMagnitude t - t| ≤ scaleError := by
  rcases ht.eq_or_lt with rfl | hpos
  · rw [roundMagnitude_zero, sub_zero, abs_zero]
    exact (two_zpow_pos _).le
  · have hlog : Int.log 2 t < 7 := by
      rw [← Int.lt_zpow_iff_log_lt (by norm_num) hpos]
      exact h.trans_lt (by norm_num)
    have hspacing : spacing t - 1 ≤ -47 := by
      unfold spacing
      omega
    exact (abs_roundMagnitude_sub_le_spacing ht).trans (two_zpow_mono hspacing)

theorem isMagnitude_hundred : IsMagnitude 100 := by
  have h : IsMagnitude ((100 : ℕ) : ℝ) := isMagnitude_natCast (by norm_num)
  rwa [Nat.cast_ofNat] at h

theorem roundMagnitude_le_hundred {t : ℝ} (ht : 0 ≤ t) (h : t ≤ 100) : roundMagnitude t ≤ 100 := by
  have hle := roundMagnitude_mono ht h
  rwa [isMagnitude_hundred.roundMagnitude_eq] at hle

/-- On the scale no rounding overflows. -/
theorem nearest_of_le_hundred {t : ℝ} (ht : 0 ≤ t) (h : t ≤ 100) :
    nearest t = (roundMagnitude t : ℝ) :=
  nearest_of_roundMagnitude_lt ht
    ((roundMagnitude_le_hundred ht h).trans_lt isMagnitude_hundred.lt_limit)

theorem exists_onScale_near (t : ℝ) : ∃ a : ℝ,
    max 0 (min (nearest t) 100) = (a : EReal) ∧ |a - onScale t| ≤ scaleError := by
  have herror : 0 ≤ scaleError := (two_zpow_pos _).le
  have hhundred : (100 : EReal) = ((100 : ℝ) : EReal) := by rw [hundred_eq]; norm_num
  rcases le_or_gt t 0 with hneg | hpos
  · have hlow : nearest t ≤ 0 := nearest_nonpos (by exact_mod_cast hneg)
    refine ⟨0, ?_, ?_⟩
    · rw [max_eq_left ((min_le_left _ _).trans hlow), EReal.coe_zero]
    · rwa [onScale_eq, max_eq_left ((min_le_left _ _).trans hneg), sub_self, abs_zero]
  rcases le_or_gt t 100 with hle | hgt
  · have hmagnitude := roundMagnitude_le_hundred hpos.le hle
    refine ⟨roundMagnitude t, ?_, ?_⟩
    · rw [nearest_of_le_hundred hpos.le hle, hhundred,
        min_eq_left (EReal.coe_le_coe_iff.mpr hmagnitude),
        max_eq_right (EReal.coe_nonneg.mpr (roundMagnitude_nonneg t))]
    · rw [onScale_eq, min_eq_left hle, max_eq_right hpos.le]
      exact abs_roundMagnitude_sub_le_scaleError hpos.le hle
  · have hhigh : 100 ≤ nearest t := by
      rw [← denotes_hundred.nearest_eq, hhundred]
      exact nearest_mono (EReal.coe_le_coe_iff.mpr hgt.le)
    refine ⟨100, ?_, ?_⟩
    · rw [min_eq_right hhigh, max_eq_right (by norm_num), hhundred]
    · rwa [onScale_eq, min_eq_right hgt.le, max_eq_right (by norm_num), sub_self, abs_zero]

/-- Two subtrahends move the result no further apart than they are, but for two roundings. -/
theorem exists_onScale_sub_near (q r r' : ℝ) : ∃ a b : ℝ,
    max 0 (min (nearest (q - r)) 100) = (a : EReal) ∧
    max 0 (min (nearest (q - r')) 100) = (b : EReal) ∧ |a - b| ≤ |r - r'| + 2 * scaleError := by
  obtain ⟨a, ha, hnear⟩ := exists_onScale_near (q - r)
  obtain ⟨b, hb, hnear'⟩ := exists_onScale_near (q - r')
  refine ⟨a, b, by rw [← EReal.coe_sub, ha], by rw [← EReal.coe_sub, hb], ?_⟩
  have hscale := abs_onScale_sub_le (q - r) (q - r')
  rw [sub_sub_sub_cancel_left, abs_sub_comm r' r] at hscale
  rw [abs_sub_comm] at hnear'
  have hab : a - b = (a - onScale (q - r)) + (onScale (q - r) - onScale (q - r')) +
      (onScale (q - r') - b) := by ring
  rw [hab]
  linarith [abs_add_three (a - onScale (q - r)) (onScale (q - r) - onScale (q - r'))
    (onScale (q - r') - b)]

/-- Two scores that both are no numbers, or that differ by at most as much. -/
inductive Within (distance : ℝ) (x y : Float) : Prop
  | lost (left : x.isNaN = true) (right : y.isNaN = true)
  | numbers (a b : ℝ) (left : Denotes x a) (right : Denotes y b) (near : |a - b| ≤ distance)

theorem within_clampScore_sub {x y y' : Float} {r r' : ℝ} (hy : Denotes y r)
    (hy' : Denotes y' r') :
    Within (|r - r'| + 2 * scaleError) (clampScore (x - y)) (clampScore (x - y')) := by
  rcases isNaN_or_denotes x with hnan | ⟨q, hq⟩
  · exact .lost (isNaN_clampScore (isNaN_sub_left hnan y))
      (isNaN_clampScore (isNaN_sub_left hnan y'))
  have hlimited {z : Float} {s : ℝ} (hz : Denotes z s) :
      Denotes (clampScore (x - z)) (max 0 (min (nearest (q - s)) 100)) := by
    apply denotes_clampScore
    apply hq.sub hz
    rw [← EReal.coe_neg]
    exact not_cancels_of_coe_right _ _
  have hsame (u : ℝ) : |u - u| ≤ |r - r'| + 2 * scaleError := by
    rw [sub_self, abs_zero]
    exact add_nonneg (abs_nonneg _) (mul_nonneg zero_le_two (two_zpow_pos _).le)
  have hx := hlimited hy
  have hx' := hlimited hy'
  induction q with
  | bot =>
    -- Nothing is left before the issues are looked at.
    have hlow (s : ℝ) : max 0 (min (nearest (⊥ - (s : EReal))) 100) = ((0 : ℝ) : EReal) := by
      rw [EReal.bot_sub, show nearest ⊥ = ⊥ from rfl, min_eq_left bot_le, max_eq_left bot_le,
        EReal.coe_zero]
    rw [hlow] at hx hx'
    exact .numbers 0 0 hx hx' (hsame 0)
  | top =>
    have hhigh (s : ℝ) : max 0 (min (nearest (⊤ - (s : EReal))) 100) =
        (((100 : ℕ) : ℝ) : EReal) := by
      rw [EReal.top_sub_coe, show nearest ⊤ = ⊤ from rfl, min_eq_right le_top,
        max_eq_right (by norm_num), hundred_eq]
    rw [hhigh] at hx hx'
    exact .numbers _ _ hx hx' (hsame _)
  | coe q =>
    obtain ⟨a, b, ha, hb, hnear⟩ := exists_onScale_sub_near q r r'
    rw [ha] at hx
    rw [hb] at hx'
    exact .numbers a b hx hx' hnear

end CodeQuality.Double
