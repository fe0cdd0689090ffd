import CodeQuality.Proofs.Curves.Rises

/-!
The four phases of a penalty curve.

In each phase the penalty of a finite metric is the whole number nearest to the rise, and only the
two phases with a power can lose it. `Curve.loses` says when they do.
-/

namespace CodeQuality

open Double

namespace Curve

def quadraticPower (power : Power) (c : Curve) (x : Float) : Float :=
  power ((x - c.linearMax) / (c.quadraticMax - c.linearMax)) c.quadraticExponent

def exponentialPower (power : Power) (c : Curve) (x : Float) : Float :=
  power ((x - c.quadraticMax) / c.exponentialSpan) c.exponentialExponent

/-- Whether the penalty of `x` is no number: an infinite power is multiplied with zero. -/
def loses (power : Power) (c : Curve) (x : Float) : Bool :=
  c.linearMax < x && x ≤ c.quadraticMax && (c.quadraticPower power x).isInf
      && c.quadraticPenalty == c.linearPenalty
    || c.quadraticMax < x && (c.exponentialPower power x).isInf && c.exponentialScale == 0.0

namespace Reads

variable {c : Curve} {r : RealCurve} {x : Float} {a : ℝ} {power : Power}

/-! ### The phase of a metric -/

theorem penalty_free (hc : c.Reads r) (hx : Denotes x a) (h : a ≤ r.excellentMax) :
    c.penalty power x = 0.0 := by
  unfold Curve.penalty
  exact if_pos ((hx.coe_le_iff hc.excellentMax).mpr h)

theorem penalty_linear (hc : c.Reads r) (hx : Denotes x a) (h₁ : r.excellentMax < a)
    (h₂ : a ≤ r.linearMax) : c.penalty power x = roundHalfAway (c.linearRise x) := by
  have hfree : ¬ x ≤ c.excellentMax := hx.not_le_of_coe_lt hc.excellentMax h₁
  unfold Curve.penalty
  rw [if_neg hfree]
  exact if_pos ((hx.coe_le_iff hc.linearMax).mpr h₂)

theorem penalty_quadratic (hc : c.Reads r) (hx : Denotes x a) (h₁ : r.linearMax < a)
    (h₂ : a ≤ r.quadraticMax) :
    c.penalty power x = roundHalfAway (c.quadraticRise power x) := by
  have hfree : ¬ x ≤ c.excellentMax :=
    hx.not_le_of_coe_lt hc.excellentMax (hc.first_le.trans_lt h₁)
  have hlinear : ¬ x ≤ c.linearMax := hx.not_le_of_coe_lt hc.linearMax h₁
  unfold Curve.penalty
  rw [if_neg hfree, if_neg hlinear]
  exact if_pos ((hx.coe_le_iff hc.quadraticMax).mpr h₂)

theorem penalty_exponential (hc : c.Reads r) (hx : Denotes x a) (h : r.quadraticMax < a) :
    c.penalty power x = roundHalfAway (c.exponentialRise power x) := by
  have h₁ : r.linearMax < a := hc.second_le.trans_lt h
  have hfree : ¬ x ≤ c.excellentMax :=
    hx.not_le_of_coe_lt hc.excellentMax (hc.first_le.trans_lt h₁)
  have hlinear : ¬ x ≤ c.linearMax := hx.not_le_of_coe_lt hc.linearMax h₁
  have hquadratic : ¬ x ≤ c.quadraticMax := hx.not_le_of_coe_lt hc.quadraticMax h
  unfold Curve.penalty
  rw [if_neg hfree, if_neg hlinear, if_neg hquadratic]

/-! ### The rises as numbers -/

theorem denotes_linear (hc : c.Reads r) (hx : Denotes x a) (h₁ : r.excellentMax < a)
    (h₂ : a ≤ r.linearMax) :
    Denotes (c.linearRise x) (r.linear a) ∧ 0 ≤ r.linear a ∧ r.linear a ≤ r.linearPenalty := by
  obtain ⟨hlength, hpos, hwhole⟩ := hc.linearLength (h₁.trans_le h₂)
  have hprogress := denotes_progress hx hc.excellentMax hlength hc.start_nonneg h₁.le hpos
  have hnonneg := progress_nonneg (a := a) hpos.le h₁.le
  have hle : progress a r.excellentMax r.linearLength ≤ 1 := by
    rw [← progress_eq_one hpos hwhole]
    exact progress_mono hpos.le h₂
  refine ⟨hprogress.mul hc.linearPenalty ?_, ?_, ?_⟩
  · obtain ⟨q, hq, -, -⟩ := exists_real hnonneg (show _ ≤ ((1 : ℝ) : EReal) from hle)
    rw [hq]
    simp [Annihilates]
  · exact nearest_mul_nonneg hnonneg hc.linearPenalty_nonneg
  · calc r.linear a ≤ nearest (1 * r.linearPenalty) :=
          nearest_mul_mono hc.linearPenalty_nonneg hle
      _ = r.linearPenalty := by rw [one_mul, hc.linearPenalty.nearest_eq]

theorem denotes_quadraticFraction (hc : c.Reads r) (hx : Denotes x a) (h₁ : r.linearMax < a)
    (h₂ : a ≤ r.quadraticMax) :
    Denotes ((x - c.linearMax) / (c.quadraticMax - c.linearMax))
        (progress a r.linearMax r.quadraticLength) ∧
      0 ≤ progress a r.linearMax r.quadraticLength := by
  obtain ⟨hlength, hpos, -⟩ := hc.quadraticLength (h₁.trans_le h₂)
  exact ⟨denotes_progress hx hc.linearMax hlength hc.linearMax_nonneg h₁.le hpos,
    progress_nonneg hpos.le h₁.le⟩

theorem denotes_exponentialFraction (hc : c.Reads r) (hx : Denotes x a)
    (h : r.quadraticMax < a) :
    Denotes ((x - c.quadraticMax) / c.exponentialSpan)
        (progress a r.quadraticMax r.exponentialSpan) ∧
      0 ≤ progress a r.quadraticMax r.exponentialSpan :=
  ⟨denotes_progress hx hc.quadraticMax hc.exponentialSpan hc.quadraticMax_nonneg h.le hc.span_pos,
    progress_nonneg hc.span_pos.le h.le⟩

theorem exists_quadraticPower (hc : c.Reads r) (h : power.NonNegative) (hx : Denotes x a)
    (h₁ : r.linearMax < a) (h₂ : a ≤ r.quadraticMax) :
    ∃ w, Denotes (c.quadraticPower power x) w ∧ 0 ≤ w := by
  obtain ⟨hfraction, hnonneg⟩ := hc.denotes_quadraticFraction hx h₁ h₂
  exact h.exists_denotes hfraction hnonneg hc.quadraticExponent.1 hc.quadraticExponent.2

theorem exists_exponentialPower (hc : c.Reads r) (h : power.NonNegative) (hx : Denotes x a)
    (h₁ : r.quadraticMax < a) : ∃ w, Denotes (c.exponentialPower power x) w ∧ 0 ≤ w := by
  obtain ⟨hfraction, hnonneg⟩ := hc.denotes_exponentialFraction hx h₁
  exact h.exists_denotes hfraction hnonneg hc.exponentialExponent.1 hc.exponentialExponent.2

theorem denotes_quadratic (hc : c.Reads r) {w : EReal}
    (hpower : Denotes (c.quadraticPower power x) w) (hw : 0 ≤ w)
    (h : ¬ (w = ⊤ ∧ r.quadraticGain = 0)) :
    Denotes (c.quadraticRise power x) (raised r.linearPenalty w r.quadraticGain) :=
  denotes_raised hc.linearPenalty hpower hc.quadraticGain.1 hw h

theorem denotes_exponential (hc : c.Reads r) {w : EReal}
    (hpower : Denotes (c.exponentialPower power x) w) (hw : 0 ≤ w)
    (h : ¬ (w = ⊤ ∧ r.exponentialScale = 0)) :
    Denotes (c.exponentialRise power x) (raised r.quadraticPenalty w r.exponentialScale) :=
  denotes_raised hc.quadraticPenalty hpower hc.exponentialScale hw h

theorem quadratic_nonneg (hc : c.Reads r) {w : EReal} (hw : 0 ≤ w) :
    0 ≤ raised r.linearPenalty w r.quadraticGain :=
  raised_nonneg hc.linearPenalty_nonneg hw hc.quadraticGain.2.1

theorem exponential_nonneg (hc : c.Reads r) {w : EReal} (hw : 0 ≤ w) :
    0 ≤ raised r.quadraticPenalty w r.exponentialScale :=
  raised_nonneg hc.quadraticPenalty_nonneg hw hc.scale_nonneg

/-! ### Where a penalty is lost -/

theorem loses_before (hc : c.Reads r) (hx : Denotes x a) (h : a ≤ r.linearMax) :
    c.loses power x = false := by
  have hlinear : ¬ c.linearMax < x := hc.linearMax.not_lt_of_coe_le hx h
  have hquadratic : ¬ c.quadraticMax < x :=
    hc.quadraticMax.not_lt_of_coe_le hx (h.trans hc.second_le)
  simp [loses, hlinear, hquadratic]

theorem loses_quadratic_iff (hc : c.Reads r) (hx : Denotes x a) (h₁ : r.linearMax < a)
    (h₂ : a ≤ r.quadraticMax) {w : EReal} (hpower : Denotes (c.quadraticPower power x) w)
    (hw : 0 ≤ w) : c.loses power x = true ↔ w = ⊤ ∧ r.quadraticGain = 0 := by
  have hlinear : c.linearMax < x := (hc.linearMax.coe_lt_iff hx).mpr h₁
  have hquadratic : x ≤ c.quadraticMax := (hx.coe_le_iff hc.quadraticMax).mpr h₂
  have hbeyond : ¬ c.quadraticMax < x := hc.quadraticMax.not_lt_of_coe_le hx h₂
  rw [hc.quadraticGain.2.2, ← hpower.isInf_iff_eq_top hw, ← EReal.coe_eq_coe_iff,
    ← hc.quadraticPenalty.beq_iff hc.linearPenalty]
  simp [loses, hlinear, hquadratic, hbeyond]

theorem loses_exponential_iff (hc : c.Reads r) (hx : Denotes x a) (h : r.quadraticMax < a)
    {w : EReal} (hpower : Denotes (c.exponentialPower power x) w) (hw : 0 ≤ w) :
    c.loses power x = true ↔ w = ⊤ ∧ r.exponentialScale = 0 := by
  have hquadratic : ¬ x ≤ c.quadraticMax := hx.not_le_of_coe_lt hc.quadraticMax h
  have hbeyond : c.quadraticMax < x := (hc.quadraticMax.coe_lt_iff hx).mpr h
  rw [← hpower.isInf_iff_eq_top hw, ← EReal.coe_eq_zero,
    ← hc.exponentialScale.beq_iff denotes_zero]
  simp [loses, hquadratic, hbeyond]

theorem isNaN_quadraticRise (hc : c.Reads r) (hpower : Denotes (c.quadraticPower power x) ⊤)
    (h : r.quadraticGain = 0) : (c.quadraticRise power x).isNaN = true :=
  isNaN_add_right _ (isNaN_mul_of_overflow hpower hc.quadraticGain.1 h)

theorem isNaN_exponentialRise (hc : c.Reads r) (hpower : Denotes (c.exponentialPower power x) ⊤)
    (h : r.exponentialScale = 0) : (c.exponentialRise power x).isNaN = true :=
  isNaN_add_right _ (isNaN_mul_of_overflow hpower hc.exponentialScale h)

/-- A penalty is no number where it is lost, and a whole number or infinite everywhere else. -/
theorem penalty_spec (hc : c.Reads r) (h : power.NonNegative) (hx : Denotes x a) :
    if c.loses power x then (c.penalty power x).isNaN = true
    else ∃ v, 0 ≤ v ∧ Denotes (c.penalty power x) (toWhole v) := by
  -- One case for each phase, in the order in which the penalty tries them.
  by_cases h₁ : a ≤ r.excellentMax
  · rw [hc.loses_before hx (h₁.trans hc.first_le), hc.penalty_free hx h₁]
    exact ⟨0, le_rfl, toWhole_zero.symm ▸ denotes_zero⟩
  by_cases h₂ : a ≤ r.linearMax
  · obtain ⟨hrise, hnonneg, -⟩ := hc.denotes_linear hx (not_le.mp h₁) h₂
    rw [hc.loses_before hx h₂, hc.penalty_linear hx (not_le.mp h₁) h₂]
    exact ⟨_, hnonneg, denotes_roundHalfAway hrise hnonneg⟩
  by_cases h₃ : a ≤ r.quadraticMax
  · obtain ⟨w, hpower, hw⟩ := hc.exists_quadraticPower h hx (not_le.mp h₂) h₃
    have hloses := hc.loses_quadratic_iff hx (not_le.mp h₂) h₃ hpower hw
    rw [hc.penalty_quadratic hx (not_le.mp h₂) h₃]
    split_ifs with hlost
    · obtain ⟨rfl, hgain⟩ := hloses.mp hlost
      exact isNaN_roundHalfAway (hc.isNaN_quadraticRise hpower hgain)
    · have hrise := hc.denotes_quadratic hpower hw (mt hloses.mpr hlost)
      have hnonneg := hc.quadratic_nonneg hw
      exact ⟨_, hnonneg, denotes_roundHalfAway hrise hnonneg⟩
  · obtain ⟨w, hpower, hw⟩ := hc.exists_exponentialPower h hx (not_le.mp h₃)
    have hloses := hc.loses_exponential_iff hx (not_le.mp h₃) hpower hw
    rw [hc.penalty_exponential hx (not_le.mp h₃)]
    split_ifs with hlost
    · obtain ⟨rfl, hscale⟩ := hloses.mp hlost
      exact isNaN_roundHalfAway (hc.isNaN_exponentialRise hpower hscale)
    · have hrise := hc.denotes_exponential hpower hw (mt hloses.mpr hlost)
      have hnonneg := hc.exponential_nonneg hw
      exact ⟨_, hnonneg, denotes_roundHalfAway hrise hnonneg⟩

end Reads

end Curve

end CodeQuality
