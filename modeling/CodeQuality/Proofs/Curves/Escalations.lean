import CodeQuality.Proofs.Curves.Rises

/-!
The escalation on the extended real numbers: nothing up to the threshold, then a power times the
scale.
-/

namespace CodeQuality

open Double

structure RealEscalation where
  threshold : ℝ
  span : ℝ
  scale : ℝ

namespace Escalation

/-- The numbers behind the coefficients of an accepted escalation. -/
structure Reads (e : Escalation) (r : RealEscalation) : Prop where
  threshold : Denotes e.threshold r.threshold
  span : Denotes e.span r.span
  scale : Denotes e.scale r.scale
  exponent : 0.0 < e.exponent ∧ e.exponent.isFinite = true
  threshold_nonneg : 0 ≤ r.threshold
  span_pos : 0 < r.span
  scale_nonneg : 0 ≤ r.scale

theorem exists_reads {e : Escalation} (h : e.fault? = none) : ∃ r, e.Reads r := by
  unfold Escalation.fault? at h
  split_ifs at h with hrules
  simp only [Escalation.coefficients, List.any_cons, List.any_nil, Bool.or_false, Bool.or_eq_true,
    Bool.not_eq_true', not_or, Bool.not_eq_false, decide_eq_true_eq] at hrules
  rcases hrules with ⟨⟨⟨⟨⟨h₁, h₂, h₃, h₄⟩, hthreshold⟩, hspan⟩, hexponent⟩, hscale⟩
  obtain ⟨threshold, hthreshold'⟩ := exists_denotes_of_isFinite h₁
  obtain ⟨span, hspan'⟩ := exists_denotes_of_isFinite h₂
  obtain ⟨exponent, hexponent'⟩ := exists_denotes_of_isFinite h₃
  obtain ⟨scale, hscale'⟩ := exists_denotes_of_isFinite h₄
  simp only [hthreshold'.lt_iff denotes_zero, hspan'.le_iff denotes_zero,
    hexponent'.le_iff denotes_zero, hscale'.lt_iff denotes_zero, not_lt, not_le, EReal.coe_nonneg,
    EReal.coe_pos] at hthreshold hspan hexponent hscale
  exact ⟨⟨threshold, span, scale⟩,
    { threshold := hthreshold'
      span := hspan'
      scale := hscale'
      exponent := ⟨(denotes_zero.lt_iff hexponent').mpr (EReal.coe_pos.mpr hexponent), h₃⟩
      threshold_nonneg := hthreshold
      span_pos := hspan
      scale_nonneg := hscale }⟩

def growth (power : Power) (e : Escalation) (complexity : UInt32) : Float :=
  power ((complexity.toFloat - e.threshold) / e.span) e.exponent

/-- Whether the penalty is no number: an infinite power is multiplied with zero. -/
def loses (power : Power) (e : Escalation) (complexity : UInt32) : Bool :=
  e.threshold < complexity.toFloat && (e.growth power complexity).isInf && e.scale == 0.0

namespace Reads

variable {e : Escalation} {r : RealEscalation} {power : Power} {n : UInt32}

theorem le_threshold_iff (he : e.Reads r) :
    n.toFloat ≤ e.threshold ↔ (n.toNat : ℝ) ≤ r.threshold :=
  (denotes_toFloat_uint32 n).coe_le_iff he.threshold

theorem penalty_free (he : e.Reads r) (h : (n.toNat : ℝ) ≤ r.threshold) :
    e.penalty power n = 0.0 :=
  if_pos (he.le_threshold_iff.mpr h)

theorem penalty_beyond (he : e.Reads r) (h : r.threshold < n.toNat) :
    e.penalty power n = roundHalfAway (e.growth power n * e.scale) :=
  if_neg (mt he.le_threshold_iff.mp (not_le.mpr h))

theorem denotes_fraction (he : e.Reads r) (h : r.threshold < n.toNat) :
    Denotes ((n.toFloat - e.threshold) / e.span) (progress n.toNat r.threshold r.span) :=
  denotes_progress (denotes_toFloat_uint32 n) he.threshold he.span he.threshold_nonneg h.le
    he.span_pos

theorem exists_growth (he : e.Reads r) (h : power.NonNegative) (hn : r.threshold < n.toNat) :
    ∃ w, Denotes (e.growth power n) w ∧ 0 ≤ w :=
  h.exists_denotes (he.denotes_fraction hn) (progress_nonneg he.span_pos.le hn.le) he.exponent.1
    he.exponent.2

theorem loses_before (he : e.Reads r) (h : (n.toNat : ℝ) ≤ r.threshold) :
    e.loses power n = false := by
  have hlt : ¬ e.threshold < n.toFloat :=
    mt (he.threshold.coe_lt_iff (denotes_toFloat_uint32 n)).mp (not_lt.mpr h)
  simp [loses, hlt]

theorem loses_iff (he : e.Reads r) (h : r.threshold < n.toNat) {w : EReal}
    (hpower : Denotes (e.growth power n) w) (hw : 0 ≤ w) :
    e.loses power n = true ↔ w = ⊤ ∧ r.scale = 0 := by
  have hlt : e.threshold < n.toFloat :=
    (he.threshold.coe_lt_iff (denotes_toFloat_uint32 n)).mpr h
  rw [← hpower.isInf_iff_eq_top hw, ← EReal.coe_eq_zero, ← he.scale.beq_iff denotes_zero]
  simp [loses, hlt]

theorem denotes_rise (he : e.Reads r) {w : EReal} (hpower : Denotes (e.growth power n) w)
    (hw : 0 ≤ w) (h : ¬ (w = ⊤ ∧ r.scale = 0)) :
    Denotes (e.growth power n * e.scale) (nearest (w * r.scale)) ∧ 0 ≤ nearest (w * r.scale) :=
  ⟨hpower.mul he.scale (not_annihilates_of_nonneg hw h), nearest_mul_nonneg hw he.scale_nonneg⟩

theorem penalty_spec (he : e.Reads r) (h : power.NonNegative) (n : UInt32) :
    if e.loses power n then (e.penalty power n).isNaN = true
    else ∃ v, 0 ≤ v ∧ Denotes (e.penalty power n) (toWhole v) := by
  by_cases hn : (n.toNat : ℝ) ≤ r.threshold
  · rw [he.loses_before hn, he.penalty_free hn]
    exact ⟨0, le_rfl, toWhole_zero.symm ▸ denotes_zero⟩
  · obtain ⟨w, hpower, hw⟩ := he.exists_growth h (not_le.mp hn)
    have hloses := he.loses_iff (not_le.mp hn) hpower hw
    rw [he.penalty_beyond (not_le.mp hn)]
    split_ifs with hlost
    · obtain ⟨rfl, hscale⟩ := hloses.mp hlost
      exact isNaN_roundHalfAway (isNaN_mul_of_overflow hpower he.scale hscale)
    · obtain ⟨hrise, hnonneg⟩ := he.denotes_rise hpower hw (mt hloses.mpr hlost)
      exact ⟨_, hnonneg, denotes_roundHalfAway hrise hnonneg⟩

end Reads

end Escalation

end CodeQuality
