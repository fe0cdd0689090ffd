import CodeQuality.Proofs.Curves.Readings

/-!
The rises of a penalty curve as functions on extended real numbers.

On a line and along both powers a metric has come some part of the way from a breakpoint on, and
that part or a power of it is what the penalty is proportional to. The only value that is no
number comes out where a power overflows and is multiplied with zero.
-/

namespace CodeQuality

open Double

/-! ## Parts of the way -/

/-- The part of a length that lies between `start` and `a`, rounded as doubles round it. -/
noncomputable def progress (a start length : ℝ) : EReal :=
  nearest (nearest ((a - start : ℝ)) / length)

theorem progress_mono {a b start length : ℝ} (hlength : 0 ≤ length) (h : a ≤ b) :
    progress a start length ≤ progress b start length := by
  apply nearest_mono
  apply EReal.div_le_div_right_of_nonneg (EReal.coe_nonneg.mpr hlength)
  apply nearest_mono
  exact EReal.coe_le_coe_iff.mpr (by linarith)

theorem progress_nonneg {a start length : ℝ} (hlength : 0 ≤ length) (h : start ≤ a) :
    0 ≤ progress a start length := by
  have hdifference : (0 : EReal) ≤ ((a - start : ℝ) : EReal) :=
    EReal.coe_nonneg.mpr (sub_nonneg.mpr h)
  apply nearest_nonneg
  exact EReal.div_nonneg (nearest_nonneg hdifference) (EReal.coe_nonneg.mpr hlength)

theorem progress_eq_one {a start length : ℝ} (hlength : 0 < length)
    (h : nearest ((a - start : ℝ)) = length) : progress a start length = 1 := by
  unfold progress
  rw [h, EReal.div_self (EReal.coe_ne_bot _) (EReal.coe_ne_top _)
    (EReal.coe_ne_zero.mpr hlength.ne')]
  exact denotes_one.nearest_eq

theorem denotes_progress {x s l : Float} {a start length : ℝ} (hx : Denotes x a)
    (hs : Denotes s start) (hl : Denotes l length) (hstart : 0 ≤ start) (h : start ≤ a)
    (hlength : 0 < length) : Denotes ((x - s) / l) (progress a start length) := by
  obtain ⟨hreal, hdifference, -⟩ := hx.difference hs hstart h
  unfold progress
  rw [hreal]
  exact hdifference.div hl hlength.ne'

/-! ## Multiples of a power -/

/-- What a power `w` and a factor add to a base. -/
noncomputable def raised (base : ℝ) (w : EReal) (factor : ℝ) : EReal :=
  nearest (base + nearest (w * factor))

theorem nearest_mul_nonneg {w : EReal} {factor : ℝ} (hw : 0 ≤ w) (hfactor : 0 ≤ factor) :
    0 ≤ nearest (w * factor) :=
  nearest_nonneg (EReal.mul_nonneg hw (EReal.coe_nonneg.mpr hfactor))

theorem nearest_mul_mono {w w' : EReal} {factor : ℝ} (hfactor : 0 ≤ factor) (h : w ≤ w') :
    nearest (w * factor) ≤ nearest (w' * factor) :=
  nearest_mono (mul_le_mul_of_nonneg_right h (EReal.coe_nonneg.mpr hfactor))

theorem raised_mono {base factor : ℝ} {w w' : EReal} (hfactor : 0 ≤ factor) (h : w ≤ w') :
    raised base w factor ≤ raised base w' factor := by
  apply nearest_mono
  exact add_le_add_right (nearest_mul_mono hfactor h) _

theorem le_raised {x : Float} {base factor : ℝ} {w : EReal} (hbase : Denotes x base)
    (hw : 0 ≤ w) (hfactor : 0 ≤ factor) : base ≤ raised base w factor := by
  have hproduct := nearest_mul_nonneg hw hfactor
  calc (base : EReal) = nearest base := hbase.nearest_eq.symm
    _ ≤ raised base w factor := nearest_mono (le_add_of_nonneg_right hproduct)

theorem raised_nonneg {base factor : ℝ} {w : EReal} (hbase : 0 ≤ base) (hw : 0 ≤ w)
    (hfactor : 0 ≤ factor) : 0 ≤ raised base w factor := by
  apply nearest_nonneg
  exact add_nonneg (EReal.coe_nonneg.mpr hbase) (nearest_mul_nonneg hw hfactor)

theorem denotes_raised {x p k : Float} {base factor : ℝ} {w : EReal} (hx : Denotes x base)
    (hp : Denotes p w) (hk : Denotes k factor) (hw : 0 ≤ w) (h : ¬ (w = ⊤ ∧ factor = 0)) :
    Denotes (x + p * k) (raised base w factor) := by
  have hproduct := hp.mul hk (not_annihilates_of_nonneg hw h)
  exact hx.add hproduct (not_cancels_of_coe_left _ _)

/-- A power of one adds the factor itself. -/
theorem denotes_raised_one {x k : Float} {base factor : ℝ} (hx : Denotes x base)
    (hk : Denotes k factor) : Denotes (x + k) (raised base 1 factor) := by
  unfold raised
  rw [one_mul, hk.nearest_eq]
  exact hx.add hk (not_cancels_of_coe_left _ _)

theorem isNaN_mul_of_overflow {p k : Float} {factor : ℝ} (hp : Denotes p ⊤)
    (hk : Denotes k factor) (h : factor = 0) : (p * k).isNaN = true := by
  rw [h] at hk
  exact hp.isNaN_mul_of_annihilates hk (.inr ⟨.inl rfl, rfl⟩)

/-! ## Lengths -/

namespace RealCurve

variable (r : RealCurve)

noncomputable def linearLength : ℝ := (nearest ((r.linearMax - r.excellentMax : ℝ))).toReal

noncomputable def quadraticLength : ℝ := (nearest ((r.quadraticMax - r.linearMax : ℝ))).toReal

noncomputable def quadraticGain : ℝ :=
  (nearest ((r.quadraticPenalty - r.linearPenalty : ℝ))).toReal

/-- The penalty on the line before rounding. -/
noncomputable def linear (a : ℝ) : EReal :=
  nearest (progress a r.excellentMax r.linearLength * r.linearPenalty)

end RealCurve

namespace Curve.Reads

variable {c : Curve} {r : RealCurve}

theorem linearMax_nonneg (hc : c.Reads r) : 0 ≤ r.linearMax := hc.start_nonneg.trans hc.first_le

theorem quadraticMax_nonneg (hc : c.Reads r) : 0 ≤ r.quadraticMax :=
  hc.linearMax_nonneg.trans hc.second_le

theorem quadraticPenalty_nonneg (hc : c.Reads r) : 0 ≤ r.quadraticPenalty :=
  hc.linearPenalty_nonneg.trans hc.penalties_le

theorem linearLength (hc : c.Reads r) (h : r.excellentMax < r.linearMax) :
    Denotes (c.linearMax - c.excellentMax) r.linearLength ∧ 0 < r.linearLength ∧
      nearest ((r.linearMax - r.excellentMax : ℝ)) = r.linearLength := by
  obtain ⟨hreal, hdifference, -, hpos⟩ :=
    hc.linearMax.difference hc.excellentMax hc.start_nonneg hc.first_le
  exact ⟨hdifference, hpos h, hreal⟩

theorem quadraticLength (hc : c.Reads r) (h : r.linearMax < r.quadraticMax) :
    Denotes (c.quadraticMax - c.linearMax) r.quadraticLength ∧ 0 < r.quadraticLength ∧
      nearest ((r.quadraticMax - r.linearMax : ℝ)) = r.quadraticLength := by
  obtain ⟨hreal, hdifference, -, hpos⟩ :=
    hc.quadraticMax.difference hc.linearMax hc.linearMax_nonneg hc.second_le
  exact ⟨hdifference, hpos h, hreal⟩

theorem quadraticGain (hc : c.Reads r) :
    Denotes (c.quadraticPenalty - c.linearPenalty) r.quadraticGain ∧ 0 ≤ r.quadraticGain ∧
      (r.quadraticGain = 0 ↔ r.quadraticPenalty = r.linearPenalty) := by
  obtain ⟨-, hdifference, hnonneg, hpos⟩ :=
    hc.quadraticPenalty.difference hc.linearPenalty hc.linearPenalty_nonneg hc.penalties_le
  refine ⟨hdifference, hnonneg, ?_, ?_⟩
  · intro hzero
    by_contra hne
    have hgain : 0 < r.quadraticGain := hpos (lt_of_le_of_ne hc.penalties_le (Ne.symm hne))
    exact hgain.ne' hzero
  · intro heq
    unfold RealCurve.quadraticGain
    rw [heq, sub_self, EReal.coe_zero, nearest_zero, EReal.toReal_zero]

end Curve.Reads

end CodeQuality
