import CodeQuality.Proofs.Curves.Escalations
import CodeQuality.Proofs.Curves.Penalties

/-!
Penalties in the order of their metrics.

Inside each phase the rise is monotone, and each phase ends at or below the penalty at which the
next one starts. There is one exception: the first power ends at the linear penalty plus the gain,
and in doubles that sum can be above the quadratic penalty. Where both round to different whole
numbers, a metric past the last breakpoint can cost less than one before it.
-/

namespace CodeQuality

open Double

theorem Power.Monotone.le {power : Power} (h : power.Monotone) {x y e : Float} {u v w w' : EReal}
    (hx : Denotes x u) (hy : Denotes y v) (hu : 0 ≤ u) (huv : u ≤ v)
    (he : 0.0 < e ∧ e.isFinite = true) (hw : Denotes (power x e) w)
    (hw' : Denotes (power y e) w') : w ≤ w' := by
  apply (hw.le_iff hw').mp
  exact h.mono x y e ((denotes_zero.le_iff hx).mpr hu) ((hx.le_iff hy).mpr huv) he.1 he.2

namespace Curve

/-- The end of the first power as doubles compute it: the linear penalty and the gain. -/
def quadraticEnd (c : Curve) : Float :=
  c.linearPenalty + (c.quadraticPenalty - c.linearPenalty)

/-- Whether the first power ends above the whole penalty at which the second one starts. -/
def overshoots (c : Curve) : Bool :=
  roundHalfAway c.quadraticPenalty < roundHalfAway c.quadraticEnd

namespace Reads

variable {c : Curve} {r : RealCurve} {x y : Float} {a b : ℝ} {power : Power}

theorem linear_mono (hc : c.Reads r) (h₁ : r.excellentMax < a) (h₂ : b ≤ r.linearMax)
    (hab : a ≤ b) : r.linear a ≤ r.linear b := by
  obtain ⟨-, hpos, -⟩ := hc.linearLength (h₁.trans_le (hab.trans h₂))
  apply nearest_mono
  apply mul_le_mul_of_nonneg_right (progress_mono hpos.le hab)
  exact EReal.coe_nonneg.mpr hc.linearPenalty_nonneg

theorem quadraticPower_end (hc : c.Reads r) (h : power.Monotone)
    (hlt : r.linearMax < r.quadraticMax) : c.quadraticPower power c.quadraticMax = 1.0 := by
  obtain ⟨hlength, hpos, hwhole⟩ := hc.quadraticLength hlt
  obtain ⟨hfraction, -⟩ := hc.denotes_quadraticFraction hc.quadraticMax hlt le_rfl
  -- The way is exactly one: a length divided by itself has no error.
  rw [progress_eq_one hpos hwhole] at hfraction
  have hone : (c.quadraticMax - c.linearMax) / (c.quadraticMax - c.linearMax) = 1.0 :=
    eq_of_denotes (r := 1) hfraction denotes_one one_ne_zero
  unfold quadraticPower
  rw [hone, h.one _ hc.quadraticExponent.1 hc.quadraticExponent.2]

theorem quadraticPower_mono (hc : c.Reads r) (h : power.Monotone) (hx : Denotes x a)
    (hy : Denotes y b) (h₁ : r.linearMax < a) (h₂ : b ≤ r.quadraticMax) (hab : a ≤ b)
    {w w' : EReal} (hw : Denotes (c.quadraticPower power x) w)
    (hw' : Denotes (c.quadraticPower power y) w') : w ≤ w' := by
  obtain ⟨hfraction, hnonneg⟩ := hc.denotes_quadraticFraction hx h₁ (hab.trans h₂)
  obtain ⟨hfraction', -⟩ := hc.denotes_quadraticFraction hy (h₁.trans_le hab) h₂
  obtain ⟨-, hpos, -⟩ := hc.quadraticLength (h₁.trans_le (hab.trans h₂))
  exact h.le hfraction hfraction' hnonneg (progress_mono hpos.le hab) hc.quadraticExponent hw hw'

theorem exponentialPower_mono (hc : c.Reads r) (h : power.Monotone) (hx : Denotes x a)
    (hy : Denotes y b) (h₁ : r.quadraticMax < a) (hab : a ≤ b) {w w' : EReal}
    (hw : Denotes (c.exponentialPower power x) w)
    (hw' : Denotes (c.exponentialPower power y) w') : w ≤ w' := by
  obtain ⟨hfraction, hnonneg⟩ := hc.denotes_exponentialFraction hx h₁
  obtain ⟨hfraction', -⟩ := hc.denotes_exponentialFraction hy (h₁.trans_le hab)
  exact h.le hfraction hfraction' hnonneg (progress_mono hc.span_pos.le hab)
    hc.exponentialExponent hw hw'

/-! ### The phases as numbers -/

theorem denotes_penalty_linear (hc : c.Reads r) (hx : Denotes x a) (h₁ : r.excellentMax < a)
    (h₂ : a ≤ r.linearMax) : Denotes (c.penalty power x) (toWhole (r.linear a)) := by
  obtain ⟨hrise, hnonneg, -⟩ := hc.denotes_linear hx h₁ h₂
  rw [hc.penalty_linear hx h₁ h₂]
  exact denotes_roundHalfAway hrise hnonneg

theorem denotes_penalty_quadratic (hc : c.Reads r) (h : power.Monotone) (hx : Denotes x a)
    (h₁ : r.linearMax < a) (h₂ : a ≤ r.quadraticMax) :
    ∃ w, Denotes (c.quadraticPower power x) w ∧ 0 ≤ w ∧ w ≤ 1 ∧
      Denotes (c.penalty power x) (toWhole (raised r.linearPenalty w r.quadraticGain)) := by
  obtain ⟨w, hw, hnonneg⟩ := hc.exists_quadraticPower h.nonNegative hx h₁ h₂
  have hend : Denotes (c.quadraticPower power c.quadraticMax) 1 := by
    rw [hc.quadraticPower_end h (h₁.trans_le h₂)]
    exact denotes_one
  have hle := hc.quadraticPower_mono h hx hc.quadraticMax h₁ le_rfl h₂ hw hend
  -- Up to the last breakpoint the power is at most one, so nothing is lost.
  have htop : ¬ (w = ⊤ ∧ r.quadraticGain = 0) := by
    rintro ⟨rfl, -⟩
    exact absurd hle (not_le.mpr (EReal.coe_lt_top 1))
  refine ⟨w, hw, hnonneg, hle, ?_⟩
  rw [hc.penalty_quadratic hx h₁ h₂]
  exact denotes_roundHalfAway (hc.denotes_quadratic hw hnonneg htop) (hc.quadratic_nonneg hnonneg)

theorem denotes_penalty_exponential (hc : c.Reads r) (h : power.Monotone) (hx : Denotes x a)
    (h₁ : r.quadraticMax < a) {u : EReal} (hu : Denotes (c.penalty power x) u) :
    ∃ w, Denotes (c.exponentialPower power x) w ∧ 0 ≤ w ∧
      u = toWhole (raised r.quadraticPenalty w r.exponentialScale) := by
  obtain ⟨w, hw, hnonneg⟩ := hc.exists_exponentialPower h.nonNegative hx h₁
  rw [hc.penalty_exponential hx h₁] at hu
  -- The penalty is a number, so it was not lost.
  have hlost : ¬ (w = ⊤ ∧ r.exponentialScale = 0) := by
    rintro ⟨rfl, hscale⟩
    have hnan := isNaN_roundHalfAway (hc.isNaN_exponentialRise hw hscale)
    rw [hu.isNaN_eq_false] at hnan
    exact Bool.noConfusion hnan
  have hrise := hc.denotes_exponential hw hnonneg hlost
  exact ⟨w, hw, hnonneg, hu.unique (denotes_roundHalfAway hrise (hc.exponential_nonneg hnonneg))⟩

theorem denotes_wholeEnd (hc : c.Reads r) :
    Denotes (roundHalfAway c.quadraticEnd)
      (toWhole (raised r.linearPenalty 1 r.quadraticGain)) := by
  have hsum : Denotes c.quadraticEnd (raised r.linearPenalty 1 r.quadraticGain) :=
    denotes_raised_one hc.linearPenalty hc.quadraticGain.1
  exact denotes_roundHalfAway hsum (hc.quadratic_nonneg zero_le_one)

theorem denotes_penalty_end (hc : c.Reads r) (h : power.Monotone)
    (hlt : r.linearMax < r.quadraticMax) :
    Denotes (c.penalty power c.quadraticMax)
      (toWhole (raised r.linearPenalty 1 r.quadraticGain)) := by
  obtain ⟨w, hw, -, -, hpenalty⟩ :=
    hc.denotes_penalty_quadratic h hc.quadraticMax hlt le_rfl
  rw [hc.quadraticPower_end h hlt] at hw
  rwa [hw.unique denotes_one] at hpenalty

/-! ### Inside one phase -/

section Order

variable {u v : EReal}

theorem penalty_mono_linear (hc : c.Reads r) (hx : Denotes x a) (hy : Denotes y b)
    (h₁ : r.excellentMax < a) (h₂ : b ≤ r.linearMax) (hab : a ≤ b)
    (hu : Denotes (c.penalty power x) u) (hv : Denotes (c.penalty power y) v) : u ≤ v := by
  rw [hu.unique (hc.denotes_penalty_linear hx h₁ (hab.trans h₂)),
    hv.unique (hc.denotes_penalty_linear hy (h₁.trans_le hab) h₂)]
  exact toWhole_mono (hc.linear_mono h₁ h₂ hab)

theorem penalty_mono_quadratic (hc : c.Reads r) (h : power.Monotone) (hx : Denotes x a)
    (hy : Denotes y b) (h₁ : r.linearMax < a) (h₂ : b ≤ r.quadraticMax) (hab : a ≤ b)
    (hu : Denotes (c.penalty power x) u) (hv : Denotes (c.penalty power y) v) : u ≤ v := by
  obtain ⟨w, hw, -, -, hpenalty⟩ := hc.denotes_penalty_quadratic h hx h₁ (hab.trans h₂)
  obtain ⟨w', hw', -, -, hpenalty'⟩ :=
    hc.denotes_penalty_quadratic h hy (h₁.trans_le hab) h₂
  have hle : w ≤ w' := hc.quadraticPower_mono h hx hy h₁ h₂ hab hw hw'
  rw [hu.unique hpenalty, hv.unique hpenalty']
  exact toWhole_mono (raised_mono hc.quadraticGain.2.1 hle)

theorem penalty_mono_exponential (hc : c.Reads r) (h : power.Monotone) (hx : Denotes x a)
    (hy : Denotes y b) (h₁ : r.quadraticMax < a) (hab : a ≤ b)
    (hu : Denotes (c.penalty power x) u) (hv : Denotes (c.penalty power y) v) : u ≤ v := by
  obtain ⟨w, hw, -, rfl⟩ := hc.denotes_penalty_exponential h hx h₁ hu
  obtain ⟨w', hw', -, rfl⟩ := hc.denotes_penalty_exponential h hy (h₁.trans_le hab) hv
  have hle : w ≤ w' := hc.exponentialPower_mono h hx hy h₁ hab hw hw'
  exact toWhole_mono (raised_mono hc.scale_nonneg hle)

/-! ### From one phase to the next -/

theorem penalty_nonneg (hc : c.Reads r) (h : power.Monotone) (hx : Denotes x a)
    (hu : Denotes (c.penalty power x) u) : 0 ≤ u := by
  have hspec := hc.penalty_spec h.nonNegative hx
  split_ifs at hspec with hlost
  · rw [hu.isNaN_eq_false] at hspec
    exact Bool.noConfusion hspec
  · rcases hspec with ⟨w, hw, hdenotes⟩
    rw [hu.unique hdenotes, ← toWhole_zero]
    exact toWhole_mono hw

theorem penalty_le_linearPenalty (hc : c.Reads r) (hx : Denotes x a) (h₁ : r.excellentMax < a)
    (h₂ : a ≤ r.linearMax) (hu : Denotes (c.penalty power x) u) :
    u ≤ toWhole r.linearPenalty := by
  obtain ⟨-, -, hle⟩ := hc.denotes_linear hx h₁ h₂
  rw [hu.unique (hc.denotes_penalty_linear hx h₁ h₂)]
  exact toWhole_mono hle

theorem penalty_le_end (hc : c.Reads r) (h : power.Monotone) (hx : Denotes x a)
    (h₁ : r.linearMax < a) (h₂ : a ≤ r.quadraticMax) (hu : Denotes (c.penalty power x) u) :
    u ≤ toWhole (raised r.linearPenalty 1 r.quadraticGain) := by
  obtain ⟨w, -, -, hle, hpenalty⟩ := hc.denotes_penalty_quadratic h hx h₁ h₂
  rw [hu.unique hpenalty]
  exact toWhole_mono (raised_mono hc.quadraticGain.2.1 hle)

theorem quadraticPenalty_le_penalty (hc : c.Reads r) (h : power.Monotone) (hx : Denotes x a)
    (h₁ : r.quadraticMax < a) (hu : Denotes (c.penalty power x) u) :
    toWhole r.quadraticPenalty ≤ u := by
  obtain ⟨w, -, hnonneg, rfl⟩ := hc.denotes_penalty_exponential h hx h₁ hu
  exact toWhole_mono (le_raised hc.quadraticPenalty hnonneg hc.scale_nonneg)

theorem linearPenalty_le_penalty (hc : c.Reads r) (h : power.Monotone) (hx : Denotes x a)
    (h₁ : r.linearMax < a) (hu : Denotes (c.penalty power x) u) :
    toWhole r.linearPenalty ≤ u := by
  by_cases h₂ : a ≤ r.quadraticMax
  · obtain ⟨w, -, hnonneg, -, hpenalty⟩ := hc.denotes_penalty_quadratic h hx h₁ h₂
    rw [hu.unique hpenalty]
    exact toWhole_mono (le_raised hc.linearPenalty hnonneg hc.quadraticGain.2.1)
  · calc toWhole r.linearPenalty ≤ toWhole r.quadraticPenalty :=
          toWhole_mono (EReal.coe_le_coe_iff.mpr hc.penalties_le)
      _ ≤ u := hc.quadraticPenalty_le_penalty h hx (not_le.mp h₂) hu

theorem overshoots_iff (hc : c.Reads r) :
    c.overshoots = true ↔
      toWhole r.quadraticPenalty < toWhole (raised r.linearPenalty 1 r.quadraticGain) := by
  have hstart := denotes_roundHalfAway hc.quadraticPenalty
    (EReal.coe_nonneg.mpr hc.quadraticPenalty_nonneg)
  unfold overshoots
  rw [decide_eq_true_eq, hstart.lt_iff hc.denotes_wholeEnd]

end Order

/-- A lower penalty for a worse metric is a step down at the last breakpoint. -/
theorem of_penalty_lt (hc : c.Reads r) (h : power.Monotone) (hx : Denotes x a)
    (hy : Denotes y b) (hab : a ≤ b) (hlt : c.penalty power y < c.penalty power x) :
    r.linearMax < a ∧ a ≤ r.quadraticMax ∧ r.quadraticMax < b ∧ c.overshoots = true := by
  obtain ⟨hnany, hnanx⟩ := isNaN_eq_false_of_lt hlt
  obtain ⟨u, hu⟩ := exists_denotes hnanx
  obtain ⟨v, hv⟩ := exists_denotes hnany
  have hvu : v < u := (hv.lt_iff hu).mp hlt
  -- Every pair of phases but one gives the opposite order.
  have hfalls : ¬ u ≤ v := not_le.mpr hvu
  by_cases h₁ : a ≤ r.excellentMax
  · have hzero : u = 0 := hu.unique (hc.penalty_free hx h₁ ▸ denotes_zero)
    rw [hzero] at hfalls
    exact absurd (hc.penalty_nonneg h hy hv) hfalls
  have h₁' : r.excellentMax < a := not_le.mp h₁
  by_cases h₂ : a ≤ r.linearMax
  · apply absurd _ hfalls
    by_cases hb : b ≤ r.linearMax
    · exact hc.penalty_mono_linear hx hy h₁' hb hab hu hv
    · calc u ≤ toWhole r.linearPenalty := hc.penalty_le_linearPenalty hx h₁' h₂ hu
        _ ≤ v := hc.linearPenalty_le_penalty h hy (not_le.mp hb) hv
  have h₂' : r.linearMax < a := not_le.mp h₂
  by_cases h₃ : a ≤ r.quadraticMax
  · by_cases hb : b ≤ r.quadraticMax
    · exact absurd (hc.penalty_mono_quadratic h hx hy h₂' hb hab hu hv) hfalls
    · refine ⟨h₂', h₃, not_le.mp hb, hc.overshoots_iff.mpr ?_⟩
      calc toWhole r.quadraticPenalty ≤ v :=
            hc.quadraticPenalty_le_penalty h hy (not_le.mp hb) hv
        _ < u := hvu
        _ ≤ toWhole (raised r.linearPenalty 1 r.quadraticGain) :=
            hc.penalty_le_end h hx h₂' h₃ hu
  · exact absurd (hc.penalty_mono_exponential h hx hy (not_le.mp h₃) hab hu hv) hfalls

theorem of_isFinite_of_penalty_lt (hc : c.Reads r) (h : power.Monotone)
    (hx : x.isFinite = true) (hy : y.isFinite = true) (hxy : x < y)
    (hlt : c.penalty power y < c.penalty power x) :
    c.linearMax < x ∧ x ≤ c.quadraticMax ∧ c.quadraticMax < y ∧ c.overshoots = true := by
  obtain ⟨a, ha⟩ := exists_denotes_of_isFinite hx
  obtain ⟨b, hb⟩ := exists_denotes_of_isFinite hy
  rw [hc.linearMax.coe_lt_iff ha, ha.coe_le_iff hc.quadraticMax, hc.quadraticMax.coe_lt_iff hb]
  exact hc.of_penalty_lt h ha hb ((ha.coe_lt_iff hb).mp hxy).le hlt

/-- A penalty falls below that of a metric on the first power exactly if it is below the end. -/
theorem penalty_lt_iff (hc : c.Reads r) (h : power.Monotone) :
    (∃ x y : Float, x.isFinite = true ∧ y.isFinite = true ∧ x < y ∧
        c.penalty power y < c.penalty power x) ↔
      c.linearMax < c.quadraticMax ∧ ∃ y : Float, y.isFinite = true ∧ c.quadraticMax < y ∧
        c.penalty power y < roundHalfAway c.quadraticEnd := by
  rw [hc.linearMax.coe_lt_iff hc.quadraticMax]
  constructor
  · rintro ⟨x, y, hx, hy, hxy, hlt⟩
    obtain ⟨h₁, h₂, h₃, -⟩ := hc.of_isFinite_of_penalty_lt h hx hy hxy hlt
    obtain ⟨a, ha⟩ := exists_denotes_of_isFinite hx
    rw [hc.linearMax.coe_lt_iff ha] at h₁
    rw [ha.coe_le_iff hc.quadraticMax] at h₂
    obtain ⟨hnany, hnanx⟩ := isNaN_eq_false_of_lt hlt
    obtain ⟨u, hu⟩ := exists_denotes hnanx
    obtain ⟨v, hv⟩ := exists_denotes hnany
    refine ⟨h₁.trans_le h₂, y, hy, h₃, ?_⟩
    rw [hv.lt_iff hu] at hlt
    rw [hv.lt_iff hc.denotes_wholeEnd]
    exact hlt.trans_le (hc.penalty_le_end h ha h₁ h₂ hu)
  · rintro ⟨hlt, y, hy, hbeyond, hstep⟩
    obtain ⟨v, hv⟩ := exists_denotes (isNaN_eq_false_of_lt hstep).1
    -- The breakpoint itself is the metric that costs the most on the first power.
    refine ⟨c.quadraticMax, y, hc.quadraticMax.isFinite_iff.mpr ⟨_, rfl⟩, hy, hbeyond, ?_⟩
    rw [hv.lt_iff (hc.denotes_penalty_end h hlt)]
    rwa [hv.lt_iff hc.denotes_wholeEnd] at hstep

end Reads

theorem penalty_lt_of_score_lt {power : Power} {c : Curve} {x y : Float}
    (h : c.score power x < c.score power y) : c.penalty power y < c.penalty power x := by
  obtain ⟨hnanx, hnany⟩ := isNaN_eq_false_of_lt h
  -- Scores that compare are numbers, so both penalties are.
  rcases isNaN_or_denotes (c.penalty power x) with hnan | ⟨u, hu⟩
  · rw [score, isNaN_clampScore (isNaN_sub_right _ hnan)] at hnanx
    exact Bool.noConfusion hnanx
  rcases isNaN_or_denotes (c.penalty power y) with hnan | ⟨v, hv⟩
  · rw [score, isNaN_clampScore (isNaN_sub_right _ hnan)] at hnany
    exact Bool.noConfusion hnany
  have hlt := ((denotes_clampScore_sub hu).lt_iff (denotes_clampScore_sub hv)).mp h
  rw [hv.lt_iff hu]
  exact lt_of_not_ge fun huv => absurd hlt (not_lt.mpr (remainder_anti huv))

end Curve

/-! ## Escalations -/

namespace Escalation

namespace Reads

variable {e : Escalation} {r : RealEscalation} {power : Power} {m n : UInt32} {u v : EReal}

theorem growth_mono (he : e.Reads r) (h : power.Monotone) (hm : r.threshold < m.toNat)
    (hmn : (m.toNat : ℝ) ≤ n.toNat) {w w' : EReal} (hw : Denotes (e.growth power m) w)
    (hw' : Denotes (e.growth power n) w') : w ≤ w' :=
  h.le (he.denotes_fraction hm) (he.denotes_fraction (hm.trans_le hmn))
    (progress_nonneg he.span_pos.le hm.le) (progress_mono he.span_pos.le hmn) he.exponent hw hw'

theorem denotes_penalty_beyond (he : e.Reads r) (h : power.Monotone)
    (hn : r.threshold < n.toNat) (hu : Denotes (e.penalty power n) u) :
    ∃ w, Denotes (e.growth power n) w ∧ 0 ≤ w ∧ u = toWhole (nearest (w * r.scale)) := by
  obtain ⟨w, hw, hnonneg⟩ := he.exists_growth h.nonNegative hn
  rw [he.penalty_beyond hn] at hu
  -- As with curves, a penalty that is a number was not lost.
  have hlost : ¬ (w = ⊤ ∧ r.scale = 0) := by
    rintro ⟨rfl, hscale⟩
    have hnan := isNaN_roundHalfAway (isNaN_mul_of_overflow hw he.scale hscale)
    rw [hu.isNaN_eq_false] at hnan
    exact Bool.noConfusion hnan
  obtain ⟨hrise, hrise₀⟩ := he.denotes_rise hw hnonneg hlost
  exact ⟨w, hw, hnonneg, hu.unique (denotes_roundHalfAway hrise hrise₀)⟩

theorem penalty_mono (he : e.Reads r) (h : power.Monotone)
    (hmn : (m.toNat : ℝ) ≤ n.toNat) (hu : Denotes (e.penalty power m) u)
    (hv : Denotes (e.penalty power n) v) : u ≤ v := by
  by_cases hm : (m.toNat : ℝ) ≤ r.threshold
  · -- Up to the threshold there is nothing to fall below.
    have hzero : u = 0 := hu.unique (he.penalty_free hm ▸ denotes_zero)
    have hspec := he.penalty_spec h.nonNegative n
    split_ifs at hspec with hlost
    · rw [hv.isNaN_eq_false] at hspec
      exact Bool.noConfusion hspec
    · rcases hspec with ⟨w, hw, hdenotes⟩
      rw [hzero, hv.unique hdenotes, ← toWhole_zero]
      exact toWhole_mono hw
  · have hm' : r.threshold < m.toNat := not_le.mp hm
    obtain ⟨w, hw, -, rfl⟩ := he.denotes_penalty_beyond h hm' hu
    obtain ⟨w', hw', -, rfl⟩ := he.denotes_penalty_beyond h (hm'.trans_le hmn) hv
    have hle : w ≤ w' := he.growth_mono h hm' hmn hw hw'
    exact toWhole_mono (nearest_mul_mono he.scale_nonneg hle)

end Reads

theorem not_penalty_lt {power : Power} (h : power.Monotone) {e : Escalation}
    (hfault : e.fault? = none) {m n : UInt32} (hmn : m < n) :
    ¬ e.penalty power n < e.penalty power m := by
  intro hlt
  obtain ⟨r, he⟩ := Escalation.exists_reads hfault
  obtain ⟨hnann, hnanm⟩ := isNaN_eq_false_of_lt hlt
  obtain ⟨u, hu⟩ := exists_denotes hnanm
  obtain ⟨v, hv⟩ := exists_denotes hnann
  rw [hv.lt_iff hu] at hlt
  have hle : (m.toNat : ℝ) ≤ n.toNat := Nat.cast_le.mpr (UInt32.lt_iff_toNat_lt.mp hmn).le
  exact absurd (he.penalty_mono h hle hu hv) (not_le.mpr hlt)

end Escalation

/-! ## The one step down -/

namespace Curve

/-- Under an accepted curve a worse metric costs less only across the last breakpoint, and there is
such a metric exactly if one past that breakpoint costs less than the rounded end of the first
power. A better score is a lower penalty, and the escalation never falls. -/
theorem penalty_order {power : Power} (h : power.Monotone) {c : Curve} (hc : c.fault? = none) :
    (∀ x y : Float, x.isFinite = true → y.isFinite = true → x < y →
      c.penalty power y < c.penalty power x →
        c.linearMax < x ∧ x ≤ c.quadraticMax ∧ c.quadraticMax < y ∧ c.overshoots = true) ∧
    ((∃ x y : Float, x.isFinite = true ∧ y.isFinite = true ∧ x < y ∧
        c.penalty power y < c.penalty power x) ↔
      c.linearMax < c.quadraticMax ∧ ∃ y : Float, y.isFinite = true ∧ c.quadraticMax < y ∧
        c.penalty power y < roundHalfAway c.quadraticEnd) ∧
    (∀ x y : Float, c.score power x < c.score power y →
      c.penalty power y < c.penalty power x) ∧
    ∀ e : Escalation, e.fault? = none → ∀ a b : UInt32, a < b →
      ¬ e.penalty power b < e.penalty power a := by
  obtain ⟨r, hr⟩ := Curve.exists_reads hc
  refine ⟨?_, hr.penalty_lt_iff h, ?_, ?_⟩
  · intro x y hx hy hxy hlt
    exact hr.of_isFinite_of_penalty_lt h hx hy hxy hlt
  · intro x y hlt
    exact penalty_lt_of_score_lt hlt
  · intro e he a b hab
    exact Escalation.not_penalty_lt h he hab

/-- Penalties for which the linear one and the gain add up to three and a half. -/
def overshooting : Curve :=
  { complexity with
    linearPenalty := 0.99, quadraticPenalty := 3.4999999999999996, exponentialExponent := 2.0 }

theorem penalty_order_overshooting :
    Power.square.Monotone ∧ overshooting.fault? = none ∧ overshooting.overshoots = true ∧
      ∃ x y : Float, x.isFinite = true ∧ y.isFinite = true ∧ x < y ∧
        overshooting.penalty Power.square y < overshooting.penalty Power.square x := by
  have hfault : overshooting.fault? = none := by decide
  have hovershoots : overshooting.overshoots = true := by decide
  obtain ⟨-, hexists, -, -⟩ := penalty_order Power.monotone_square hfault
  refine ⟨Power.monotone_square, hfault, hovershoots, hexists.mpr ?_⟩
  refine ⟨by decide, 50.00000001, ?_⟩
  decide

/-- Being accepted alone does not keep a curve from falling. -/
theorem exists_penalty_lt :
    ¬ ∀ (power : Power) (c : Curve) (x y : Float), power.Monotone → c.fault? = none →
      x.isFinite = true → y.isFinite = true → x < y →
        ¬ c.penalty power y < c.penalty power x := by
  intro hall
  refine hall Power.square overshooting 50.0 50.00000001 Power.monotone_square (by decide)
    (by decide) (by decide) (by decide) ?_
  decide

end Curve

end CodeQuality
