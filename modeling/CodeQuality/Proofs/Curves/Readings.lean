import CodeQuality.Escalation
import CodeQuality.Proofs.Double.Whole

/-!
What the checks of coefficients say of the numbers that the coefficients denote, and what is
assumed of a power function. All that is proved of penalties starts from these two.
-/

namespace CodeQuality

open Double

/-- For a base from zero on and a positive finite exponent, a number from zero on, infinity
included. -/
def Power.NonNegative (power : Power) : Prop :=
  ∀ x e : Float, 0.0 ≤ x → 0.0 < e → e.isFinite = true → 0.0 ≤ power x e

/-- For a positive finite exponent the power never falls from a base of zero on, and it keeps zero
and one. -/
structure Power.Monotone (power : Power) : Prop where
  mono : ∀ x y e : Float, 0.0 ≤ x → x ≤ y → 0.0 < e → e.isFinite = true → power x e ≤ power y e
  zero : ∀ e : Float, 0.0 < e → e.isFinite = true → power 0.0 e = 0.0
  one : ∀ e : Float, 0.0 < e → e.isFinite = true → power 1.0 e = 1.0

theorem Power.NonNegative.exists_denotes {power : Power} (h : power.NonNegative) {x e : Float}
    {v : EReal} (hx : Denotes x v) (hv : 0 ≤ v) (he : 0.0 < e) (hfinite : e.isFinite = true) :
    ∃ w, Denotes (power x e) w ∧ 0 ≤ w := by
  have hle : 0.0 ≤ power x e := h x e ((denotes_zero.le_iff hx).mpr hv) he hfinite
  rcases isNaN_or_denotes (power x e) with hnan | ⟨w, hw⟩
  · exact absurd hle (not_le_of_isNaN_right _ hnan)
  · exact ⟨w, hw, (denotes_zero.le_iff hw).mp hle⟩

theorem Power.Monotone.nonNegative {power : Power} (h : power.Monotone) : power.NonNegative := by
  intro x e hx he hfinite
  have hzero := h.mono 0.0 x e ((denotes_zero.le_iff denotes_zero).mpr le_rfl) hx he hfinite
  rwa [h.zero e he hfinite] at hzero

/-- The square for the exponent two, and the base itself for every other exponent. -/
def Power.square : Power := fun x e => if e == 2.0 then x * x else x

theorem Power.monotone_square : Power.square.Monotone := by
  refine ⟨?_, ?_, ?_⟩
  · intro x y e hx hxy _ _
    rcases isNaN_or_denotes y with hnan | ⟨v, hv⟩
    · exact absurd hxy (not_le_of_isNaN_right _ hnan)
    rcases isNaN_or_denotes x with hnan | ⟨u, hu⟩
    · exact absurd hx (not_le_of_isNaN_right _ hnan)
    rw [denotes_zero.le_iff hu] at hx
    have huv : u ≤ v := (hu.le_iff hv).mp hxy
    -- No factor is annihilated, since both are the same number.
    have hsquare {x : Float} {u : EReal} (hu : Denotes x u) :
        Denotes (x * x) (nearest (u * u)) := by
      apply hu.mul hu
      rintro (⟨h₀, h₁ | h₁⟩ | ⟨h₁ | h₁, h₀⟩) <;> exact absurd (h₀.symm.trans h₁) (by simp)
    unfold Power.square
    split_ifs
    · rw [(hsquare hu).le_iff (hsquare hv)]
      exact nearest_mono (mul_le_mul huv huv hx (hx.trans huv))
    · exact hxy
  · intro e _ _
    unfold Power.square
    split_ifs
    · decide
    · rfl
  · intro e _ _
    unfold Power.square
    split_ifs
    · decide
    · rfl

/-- The coefficients of a curve as real numbers. Exponents are left to the power function. -/
structure RealCurve where
  excellentMax : ℝ
  linearMax : ℝ
  quadraticMax : ℝ
  linearPenalty : ℝ
  quadraticPenalty : ℝ
  exponentialSpan : ℝ
  exponentialScale : ℝ

/-- The numbers behind the coefficients of an accepted curve, and the rules that they keep. -/
structure Curve.Reads (c : Curve) (r : RealCurve) : Prop where
  excellentMax : Denotes c.excellentMax r.excellentMax
  linearMax : Denotes c.linearMax r.linearMax
  quadraticMax : Denotes c.quadraticMax r.quadraticMax
  linearPenalty : Denotes c.linearPenalty r.linearPenalty
  quadraticPenalty : Denotes c.quadraticPenalty r.quadraticPenalty
  exponentialSpan : Denotes c.exponentialSpan r.exponentialSpan
  exponentialScale : Denotes c.exponentialScale r.exponentialScale
  quadraticExponent : 0.0 < c.quadraticExponent ∧ c.quadraticExponent.isFinite = true
  exponentialExponent : 0.0 < c.exponentialExponent ∧ c.exponentialExponent.isFinite = true
  start_nonneg : 0 ≤ r.excellentMax
  first_le : r.excellentMax ≤ r.linearMax
  second_le : r.linearMax ≤ r.quadraticMax
  linearPenalty_nonneg : 0 ≤ r.linearPenalty
  penalties_le : r.linearPenalty ≤ r.quadraticPenalty
  span_pos : 0 < r.exponentialSpan
  scale_nonneg : 0 ≤ r.exponentialScale

/-- An accepted curve has finite coefficients in the order that the rules ask for. -/
theorem Curve.exists_reads {c : Curve} (h : c.fault? = none) : ∃ r, c.Reads r := by
  unfold Curve.fault? at h
  split_ifs at h with hfinite hstart hbreaks hpenalties hline hpower hexponents hspan hscale
  simp only [Curve.coefficients, List.any_cons, List.any_nil, Bool.or_false, Bool.or_eq_true,
    Bool.not_eq_true', not_or, Bool.not_eq_false] at hfinite
  rcases hfinite with ⟨h₁, h₂, h₃, h₄, h₅, h₆, h₇, h₈, h₉⟩
  obtain ⟨em, hem⟩ := exists_denotes_of_isFinite h₁
  obtain ⟨lm, hlm⟩ := exists_denotes_of_isFinite h₂
  obtain ⟨qm, hqm⟩ := exists_denotes_of_isFinite h₃
  obtain ⟨lp, hlp⟩ := exists_denotes_of_isFinite h₄
  obtain ⟨qp, hqp⟩ := exists_denotes_of_isFinite h₅
  obtain ⟨qe, hqe⟩ := exists_denotes_of_isFinite h₆
  obtain ⟨span, hspan'⟩ := exists_denotes_of_isFinite h₇
  obtain ⟨ee, hee⟩ := exists_denotes_of_isFinite h₈
  obtain ⟨scale, hscale'⟩ := exists_denotes_of_isFinite h₉
  -- The rules compare doubles; from here on they compare the numbers behind them.
  simp only [Bool.not_eq_true', Bool.and_eq_false_iff, decide_eq_false_iff_not, not_or,
    Bool.or_eq_true, decide_eq_true_eq, hem.le_iff hlm, hlm.le_iff hqm, hem.lt_iff denotes_zero,
    hlp.lt_iff denotes_zero, hqp.lt_iff hlp, hqe.le_iff denotes_zero, hee.le_iff denotes_zero,
    hspan'.le_iff denotes_zero, hscale'.lt_iff denotes_zero, EReal.coe_le_coe_iff,
    EReal.coe_lt_coe_iff, EReal.coe_nonneg, not_lt, not_le, EReal.coe_pos]
    at hstart hbreaks hpenalties hexponents hspan hscale
  exact ⟨⟨em, lm, qm, lp, qp, span, scale⟩,
    { excellentMax := hem
      linearMax := hlm
      quadraticMax := hqm
      linearPenalty := hlp
      quadraticPenalty := hqp
      exponentialSpan := hspan'
      exponentialScale := hscale'
      quadraticExponent := ⟨(denotes_zero.lt_iff hqe).mpr (EReal.coe_pos.mpr hexponents.1), h₆⟩
      exponentialExponent := ⟨(denotes_zero.lt_iff hee).mpr (EReal.coe_pos.mpr hexponents.2), h₈⟩
      start_nonneg := hstart
      first_le := hbreaks.1
      second_le := hbreaks.2
      linearPenalty_nonneg := hpenalties.1
      penalties_le := hpenalties.2
      span_pos := hspan
      scale_nonneg := hscale }⟩

end CodeQuality
