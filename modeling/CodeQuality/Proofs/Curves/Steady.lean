import CodeQuality.Proofs.Curves.Order
import CodeQuality.Proofs.Double.Order
import CodeQuality.Proofs.Scores

/-!
Curves that give every metric a score which falls with it, and curves that compare.

A curve is steady if it is accepted, has no flat rise that an infinite power could spoil, and meets
the last breakpoint from below. The four standard curves are. Of two steady curves with the same
penalties, one whose breakpoints lie so much later that each of its phases starts where the other
is a phase ahead never costs more than the other.
-/

namespace CodeQuality

open Double

theorem progress_le_progress {a start start' length length' : ℝ} (hlength : 0 < length')
    (hlengths : length' ≤ length) (hstarts : start' ≤ start) (ha : start ≤ a) :
    progress a start length ≤ progress a start' length' := by
  have hpos : 0 < length := hlength.trans_le hlengths
  have hway : nearest ((a - start : ℝ)) ≤ nearest ((a - start' : ℝ)) :=
    nearest_mono (EReal.coe_le_coe_iff.mpr (by linarith))
  have hway₀ : 0 ≤ nearest ((a - start : ℝ)) :=
    nearest_nonneg (EReal.coe_nonneg.mpr (sub_nonneg.mpr ha))
  apply nearest_mono
  rw [EReal.le_div_iff_mul_le (EReal.coe_pos.mpr hlength) (EReal.coe_ne_top _)]
  calc nearest ((a - start : ℝ)) / length * length'
      ≤ nearest ((a - start : ℝ)) / length * length := by
        apply mul_le_mul_of_nonneg_left (EReal.coe_le_coe_iff.mpr hlengths)
        exact EReal.div_nonneg hway₀ (EReal.coe_nonneg.mpr hpos.le)
    _ = nearest ((a - start : ℝ)) :=
        EReal.div_mul_cancel (EReal.coe_ne_bot _) (EReal.coe_ne_top _)
          (EReal.coe_ne_zero.mpr hpos.ne')
    _ ≤ nearest ((a - start' : ℝ)) := hway

namespace Curve

/-! ## Steady curves -/

/-- An accepted curve none of whose penalties is lost or falls. -/
structure Steady (c : Curve) : Prop where
  accepted : c.fault? = none
  /-- The rise past the last breakpoint is not flat. -/
  rises : (c.exponentialScale == 0.0) = false
  /-- The rise before it is not flat either, unless it is empty. -/
  gains : (c.quadraticPenalty == c.linearPenalty) = false ∨
    (c.linearMax == c.quadraticMax) = true
  meets : c.overshoots = false

theorem steady_complexity : complexity.Steady :=
  ⟨by decide, by decide, .inl (by decide), by decide⟩

theorem steady_size : size.Steady :=
  ⟨by decide, by decide, .inr (by decide), by decide⟩

theorem steady_duplicationLegacy : duplicationLegacy.Steady :=
  ⟨by decide, by decide, .inl (by decide), by decide⟩

theorem steady_duplicationStrict : duplicationStrict.Steady :=
  ⟨by decide, by decide, .inl (by decide), by decide⟩

namespace Steady

variable {c d : Curve} {power : Power} {x y : Float}

theorem loses_eq_false (hc : c.Steady) (hx : x.isFinite = true) : c.loses power x = false := by
  rcases hc.gains with hgain | hempty
  · simp [loses, hc.rises, hgain]
  · -- No number lies between two breakpoints that coincide.
    obtain ⟨r, hr⟩ := exists_reads hc.accepted
    obtain ⟨a, ha⟩ := exists_denotes_of_isFinite hx
    have hends : r.linearMax = r.quadraticMax :=
      EReal.coe_eq_coe_iff.mp ((hr.linearMax.beq_iff hr.quadraticMax).mp hempty)
    have hphase : ¬ (c.linearMax < x ∧ x ≤ c.quadraticMax) := by
      rw [hr.linearMax.coe_lt_iff ha, ha.coe_le_iff hr.quadraticMax, hends]
      exact fun h => absurd h.1 (not_lt.mpr h.2)
    by_cases hlow : c.linearMax < x
    · have hhigh : ¬ x ≤ c.quadraticMax := fun hle => hphase ⟨hlow, hle⟩
      simp [loses, hc.rises, hhigh]
    · simp [loses, hc.rises, hlow]

theorem isWholeScore (hc : c.Steady) (h : power.NonNegative) (hx : x.isFinite = true) :
    IsWholeScore (c.score power x) := by
  have hscore := score_spec h hc.accepted hx
  rwa [hc.loses_eq_false hx, if_neg Bool.false_ne_true] at hscore

theorem exists_penalty (hc : c.Steady) (h : power.NonNegative) (hx : x.isFinite = true) :
    ∃ u, Denotes (c.penalty power x) u := by
  obtain ⟨r, hr⟩ := exists_reads hc.accepted
  obtain ⟨a, ha⟩ := exists_denotes_of_isFinite hx
  have hpenalty := hr.penalty_spec h ha
  rw [hc.loses_eq_false hx, if_neg Bool.false_ne_true] at hpenalty
  obtain ⟨v, -, hdenotes⟩ := hpenalty
  exact ⟨_, hdenotes⟩

/-- What is left of 100 points is the less, the greater the penalty is. -/
theorem score_le_score (hc : c.Steady) (hd : d.Steady) (h : power.NonNegative)
    (hx : x.isFinite = true) (hy : y.isFinite = true)
    (hle : c.penalty power x ≤ d.penalty power y) : d.score power y ≤ c.score power x := by
  obtain ⟨u, hu⟩ := hc.exists_penalty h hx
  obtain ⟨v, hv⟩ := hd.exists_penalty h hy
  unfold score
  rw [(denotes_clampScore_sub hv).le_iff (denotes_clampScore_sub hu)]
  exact remainder_anti ((hu.le_iff hv).mp hle)

theorem penalty_mono (hc : c.Steady) (h : power.Monotone) (hx : x.isFinite = true)
    (hy : y.isFinite = true) (hxy : x ≤ y) : c.penalty power x ≤ c.penalty power y := by
  obtain ⟨r, hr⟩ := exists_reads hc.accepted
  obtain ⟨a, ha⟩ := exists_denotes_of_isFinite hx
  obtain ⟨b, hb⟩ := exists_denotes_of_isFinite hy
  obtain ⟨u, hu⟩ := hc.exists_penalty h.nonNegative hx
  obtain ⟨v, hv⟩ := hc.exists_penalty h.nonNegative hy
  rw [hu.le_iff hv]
  by_contra hfalls
  have hlt : c.penalty power y < c.penalty power x := (hv.lt_iff hu).mpr (not_le.mp hfalls)
  obtain ⟨-, -, -, hstep⟩ := hr.of_penalty_lt h ha hb ((ha.coe_le_iff hb).mp hxy) hlt
  rw [hc.meets] at hstep
  exact Bool.noConfusion hstep

theorem score_anti (hc : c.Steady) (h : power.Monotone) (hx : x.isFinite = true)
    (hy : y.isFinite = true) (hxy : x ≤ y) : c.score power y ≤ c.score power x :=
  hc.score_le_score hc h.nonNegative hx hy (hc.penalty_mono h hx hy hxy)

end Steady

/-! ## Staggered curves -/

/-- Two curves with the same penalties, the first of which is one phase behind the second up to the
last breakpoint, and later and slower past it. -/
structure Staggered (c d : Curve) : Prop where
  start : d.linearMax ≤ c.excellentMax
  middle : d.quadraticMax ≤ c.linearMax
  span : d.exponentialSpan ≤ c.exponentialSpan
  linearPenalty : c.linearPenalty = d.linearPenalty
  quadraticPenalty : c.quadraticPenalty = d.quadraticPenalty
  exponentialExponent : c.exponentialExponent = d.exponentialExponent
  exponentialScale : c.exponentialScale = d.exponentialScale

theorem staggered_duplication : duplicationLegacy.Staggered duplicationStrict :=
  ⟨by decide, by decide, by decide, rfl, rfl, rfl, rfl⟩

theorem Staggered.exponential_le {c d : Curve} {r s : RealCurve} {power : Power} {x : Float}
    {a : ℝ} {u v : EReal} (hcd : c.Staggered d) (hr : c.Reads r) (hs : d.Reads s)
    (h : power.Monotone) (ha : Denotes x a) (hbeyond : r.quadraticMax < a)
    (hu : Denotes (c.penalty power x) u) (hv : Denotes (d.penalty power x) v) : u ≤ v := by
  have hlast : s.quadraticMax ≤ r.quadraticMax :=
    ((hs.quadraticMax.coe_le_iff hr.linearMax).mp hcd.middle).trans hr.second_le
  have hspan : s.exponentialSpan ≤ r.exponentialSpan :=
    (hs.exponentialSpan.coe_le_iff hr.exponentialSpan).mp hcd.span
  have hbase := hr.quadraticPenalty.unique (hcd.quadraticPenalty ▸ hs.quadraticPenalty)
  have hscale := hr.exponentialScale.unique (hcd.exponentialScale ▸ hs.exponentialScale)
  rw [EReal.coe_eq_coe_iff] at hbase hscale
  obtain ⟨w, hw, hw₀, rfl⟩ := hr.denotes_penalty_exponential h ha hbeyond hu
  obtain ⟨w', hw', -, rfl⟩ := hs.denotes_penalty_exponential h ha (hlast.trans_lt hbeyond) hv
  -- The same power of a smaller part of the way.
  have hle : w ≤ w' := by
    obtain ⟨hfraction, hfraction₀⟩ := hr.denotes_exponentialFraction ha hbeyond
    obtain ⟨hfraction', -⟩ := hs.denotes_exponentialFraction ha (hlast.trans_lt hbeyond)
    unfold exponentialPower at hw hw'
    rw [← hcd.exponentialExponent] at hw'
    exact h.le hfraction hfraction' hfraction₀
      (progress_le_progress hs.span_pos hspan hlast hbeyond.le) hr.exponentialExponent hw hw'
  rw [hbase, hscale]
  exact toWhole_mono (raised_mono hs.scale_nonneg hle)

theorem Staggered.penalty_le {c d : Curve} {power : Power} {x : Float} (hcd : c.Staggered d)
    (hc : c.Steady) (hd : d.Steady) (h : power.Monotone) (hx : x.isFinite = true) :
    c.penalty power x ≤ d.penalty power x := by
  obtain ⟨r, hr⟩ := exists_reads hc.accepted
  obtain ⟨s, hs⟩ := exists_reads hd.accepted
  obtain ⟨a, ha⟩ := exists_denotes_of_isFinite hx
  obtain ⟨u, hu⟩ := hc.exists_penalty h.nonNegative hx
  obtain ⟨v, hv⟩ := hd.exists_penalty h.nonNegative hx
  have hstart : s.linearMax ≤ r.excellentMax :=
    (hs.linearMax.coe_le_iff hr.excellentMax).mp hcd.start
  have hmiddle : s.quadraticMax ≤ r.linearMax :=
    (hs.quadraticMax.coe_le_iff hr.linearMax).mp hcd.middle
  rw [hu.le_iff hv]
  -- One case for each phase of the first curve.
  by_cases h₁ : a ≤ r.excellentMax
  · rw [hu.unique (hr.penalty_free ha h₁ ▸ denotes_zero)]
    exact hs.penalty_nonneg h ha hv
  by_cases h₂ : a ≤ r.linearMax
  · have hbase := hr.linearPenalty.unique (hcd.linearPenalty ▸ hs.linearPenalty)
    calc u ≤ toWhole r.linearPenalty := hr.penalty_le_linearPenalty ha (not_le.mp h₁) h₂ hu
      _ = toWhole s.linearPenalty := by rw [hbase]
      _ ≤ v := hs.linearPenalty_le_penalty h ha (hstart.trans_lt (not_le.mp h₁)) hv
  by_cases h₃ : a ≤ r.quadraticMax
  · have hbase := hr.quadraticPenalty.unique (hcd.quadraticPenalty ▸ hs.quadraticPenalty)
    have hmeets : ¬ c.overshoots = true := by rw [hc.meets]; exact Bool.false_ne_true
    rw [hr.overshoots_iff, not_lt] at hmeets
    calc u ≤ toWhole (raised r.linearPenalty 1 r.quadraticGain) :=
          hr.penalty_le_end h ha (not_le.mp h₂) h₃ hu
      _ ≤ toWhole r.quadraticPenalty := hmeets
      _ = toWhole s.quadraticPenalty := by rw [hbase]
      _ ≤ v := hs.quadraticPenalty_le_penalty h ha (hmiddle.trans_lt (not_le.mp h₂)) hv
  · exact hcd.exponential_le hr hs h ha (not_le.mp h₃) hu hv

end Curve

/-! ## The escalation -/

/-- The escalation takes no less for a greater complexity, and never gives anything back. -/
theorem Escalation.penalty_mono {power : Power} (h : power.Monotone) {e : Escalation}
    (he : e.fault? = none) (hscale : (e.scale == 0.0) = false) {m n : UInt32} (hmn : m ≤ n) :
    0.0 ≤ e.penalty power m ∧ e.penalty power m ≤ e.penalty power n := by
  obtain ⟨r, hr⟩ := exists_reads he
  have hnumber (k : UInt32) : ∃ v, Denotes (e.penalty power k) v ∧ 0 ≤ v := by
    have hloses : e.loses power k = false := by simp [loses, hscale]
    have hpenalty := hr.penalty_spec h.nonNegative k
    rw [hloses, if_neg Bool.false_ne_true] at hpenalty
    obtain ⟨v, hv, hdenotes⟩ := hpenalty
    exact ⟨_, hdenotes, toWhole_zero ▸ toWhole_mono hv⟩
  obtain ⟨u, hu, hu₀⟩ := hnumber m
  obtain ⟨v, hv, -⟩ := hnumber n
  refine ⟨nonneg_of_denotes hu hu₀, (hu.le_iff hv).mpr ?_⟩
  exact hr.penalty_mono h (Nat.cast_le.mpr (UInt32.le_iff_toNat_le.mp hmn)) hu hv

end CodeQuality
