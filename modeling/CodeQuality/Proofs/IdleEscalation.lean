import CodeQuality.Proofs.Double.Sums
import CodeQuality.Proofs.HealthBreakdown
import CodeQuality.Proofs.HealthOrder

/-!
Where the escalation cannot show in the health score.

Under the standard profile the complexity curve has no points left from the complexity on at which
the escalation starts. So wherever there is an escalation, the health score is zero already, and it
stays what it is with no escalation at all: the escalation tells files apart in the report only.
-/

namespace CodeQuality

open Double

/-- For a positive finite exponent the power never falls from a base of zero on, and it keeps
one. -/
structure Power.Rising (power : Power) : Prop where
  mono : ∀ x y e : Float, 0.0 ≤ x → x ≤ y → 0.0 < e → e.isFinite = true → power x e ≤ power y e
  one : ∀ e : Float, 0.0 < e → e.isFinite = true → power 1.0 e = 1.0

theorem Power.Monotone.rising {power : Power} (h : power.Monotone) : power.Rising :=
  ⟨h.mono, h.one⟩

/-- A power in steps: that of 1.2 with the exponent 1.8, that of 1 with any, and that of 0.1 with
the exponent 1.5, each kept up to the next one. -/
def Power.steps : Power := fun x _ =>
  if 1.2 ≤ x then 1.388437205763783
  else if 1.0 ≤ x then 1.0
  else if 0.1 ≤ x then 0.0316227766016838
  else 0.0

theorem Power.monotone_steps : Power.steps.Monotone := by
  refine ⟨?_, ?_, ?_⟩
  · intro x y _ _ hxy _ _
    -- Each step that `x` reaches is reached by `y`.
    have hkept {t : Float} (h : t ≤ x) : t ≤ y := Double.le_trans h hxy
    unfold Power.steps
    by_cases h₁ : 1.2 ≤ x
    · rw [if_pos h₁, if_pos (hkept h₁)]
      decide
    rw [if_neg h₁]
    by_cases h₂ : 1.0 ≤ x
    · rw [if_pos h₂, if_pos (hkept h₂)]
      split_ifs <;> decide
    rw [if_neg h₂]
    by_cases h₃ : 0.1 ≤ x
    · rw [if_pos h₃, if_pos (hkept h₃)]
      split_ifs <;> decide
    · rw [if_neg h₃]
      split_ifs <;> decide
  · intro e _ _
    unfold Power.steps
    decide
  · intro e _ _
    unfold Power.steps
    decide

/-! ## Nothing left -/

/-- The zero that is not negative, or a number below it. -/
def IsSpent (x : Float) : Prop := x = 0.0 ∨ x < 0.0

theorem IsSpent.clampScore_eq {x : Float} (h : IsSpent x) : clampScore x = 0.0 := by
  rcases h with rfl | hlt
  · decide
  · exact if_pos hlt

/-- Nothing comes back when more is taken. -/
theorem IsSpent.sub {x y : Float} (h : IsSpent x) (hy : 0.0 ≤ y) : IsSpent (x - y) := by
  rcases h with rfl | hlt
  · obtain ⟨v, hv, hv₀⟩ := exists_of_nonneg hy
    rcases hv₀.eq_or_lt with rfl | hpos
    · -- Zero without either zero is the positive zero.
      rcases eq_zero_of_denotes hv with rfl | rfl <;> exact .inl (by decide)
    · have hdifference := denotes_sub_of_le_hundred denotes_zero (by norm_num) hv hv₀
      rw [zero_sub, hv.neg.nearest_eq] at hdifference
      exact .inr ((hdifference.lt_iff denotes_zero).mpr (EReal.neg_lt_zero.mpr hpos))
  · have hhundred : (0.0 : Float) ≤ 100.0 := nonneg_of_denotes denotes_hundred (by norm_num)
    have hle := sub_le_left (Double.le_trans (Double.le_of_lt hlt) hhundred) hy
    exact .inr (Double.lt_of_le_of_lt hle hlt)

theorem Double.Follows.neg_of_neg {v u : EReal} (h : Follows v u) (hu : u < 0) : v < 0 := by
  cases h with
  | below computed exact => exact computed.trans_lt (by norm_num)
  | exact k low high => exact hu

/-- A whole penalty of 100 or more leaves nothing. -/
theorem isSpent_hundred_sub {p : Float} {v : EReal} (hp : Denotes p v) (hv : IsIntegral v)
    (h : 100 ≤ v) : IsSpent (100.0 - p) := by
  rcases h.eq_or_lt with rfl | hlt
  · rw [hundred_eq] at hp
    obtain rfl := eq_of_denotes hp (hundred_eq ▸ denotes_hundred) (by norm_num)
    exact .inl (by decide)
  · obtain ⟨w, hw, hfollows⟩ := tracks_hundred.sub hp hv
    have hneg : 100 - v < 0 := EReal.sub_lt_of_lt_add (by rwa [zero_add])
    exact .inr ((hw.lt_iff denotes_zero).mpr (hfollows.neg_of_neg hneg))

/-- Once the complexity has used up all points, the health score is zero. -/
theorem composeHealth_zero {d s e i : Float} (hd : IsWholeScore d) (hs : IsWholeScore s)
    (he : 0.0 ≤ e) (hi : 0.0 ≤ i) : composeHealth 0.0 d s e i = 0.0 := by
  have hstart : IsSpent (100.0 - (100.0 - 0.0)) := .inl (by decide)
  -- Four more subtractions, of which none gives anything back.
  exact ((((hstart.sub he).sub hs.lack_nonneg).sub hd.lack_nonneg).sub hi).clampScore_eq

/-! ## Curves with no points left -/

namespace Curve

/-- The penalty one span past the last breakpoint, where the power is one. -/
def spanPenalty (c : Curve) : Float := roundHalfAway (c.quadraticPenalty + c.exponentialScale)

namespace Reads

variable {c : Curve} {r : RealCurve} {power : Power} {x : Float} {a : ℝ}

theorem denotes_spanPenalty (hc : c.Reads r) :
    Denotes c.spanPenalty (toWhole (raised r.quadraticPenalty 1 r.exponentialScale)) := by
  have hsum := denotes_raised_one hc.quadraticPenalty hc.exponentialScale
  exact denotes_roundHalfAway hsum (hc.exponential_nonneg zero_le_one)

/-- A metric that is a span away has come the whole way, also as doubles compute it. -/
theorem one_le_progress (hc : c.Reads r) (hx : Denotes x a)
    (hfar : c.exponentialSpan ≤ x - c.quadraticMax) :
    r.quadraticMax < a ∧ 1 ≤ progress a r.quadraticMax r.exponentialSpan := by
  have hway := hx.sub hc.quadraticMax (not_cancels_of_coe_left _ _)
  rw [hc.exponentialSpan.le_iff hway, ← EReal.coe_sub] at hfar
  constructor
  · by_contra hle
    have hback : nearest ((a - r.quadraticMax : ℝ)) ≤ 0 :=
      nearest_nonpos (EReal.coe_nonpos.mpr (sub_nonpos.mpr (not_lt.mp hle)))
    exact absurd (hfar.trans hback) (not_le.mpr (EReal.coe_pos.mpr hc.span_pos))
  · calc (1 : EReal) = nearest 1 := denotes_one.nearest_eq.symm
      _ ≤ progress a r.quadraticMax r.exponentialSpan := by
        apply nearest_mono
        rw [EReal.le_div_iff_mul_le (EReal.coe_pos.mpr hc.span_pos) (EReal.coe_ne_top _), one_mul]
        exact hfar

theorem exists_one_le_power (hc : c.Reads r) (h : power.Rising) (hx : Denotes x a)
    (hfar : c.exponentialSpan ≤ x - c.quadraticMax) :
    ∃ w, Denotes (c.exponentialPower power x) w ∧ 1 ≤ w := by
  obtain ⟨hbeyond, hway⟩ := hc.one_le_progress hx hfar
  obtain ⟨hfraction, -⟩ := hc.denotes_exponentialFraction hx hbeyond
  obtain ⟨hpos, hfinite⟩ := hc.exponentialExponent
  have hpower := h.mono 1.0 _ _ (nonneg_of_denotes denotes_one zero_le_one)
    ((denotes_one.le_iff hfraction).mpr hway) hpos hfinite
  rw [h.one _ hpos hfinite] at hpower
  obtain ⟨o, w, ho, hw, how⟩ := exists_of_le hpower
  exact ⟨w, hw, ho.unique denotes_one ▸ how⟩

end Reads

/-- A steady curve that has used up its points one span past the last breakpoint. -/
structure Exhausts (c : Curve) : Prop extends c.Steady where
  ends : 100.0 ≤ c.spanPenalty

theorem exhausts_complexity : complexity.Exhausts :=
  ⟨steady_complexity, by decide⟩

/-- From one span past the last breakpoint on, the penalty takes all points. -/
theorem Exhausts.score_eq_zero {c : Curve} {power : Power} {x : Float} (hc : c.Exhausts)
    (h : power.Rising) (hx : x.isFinite = true) (hfar : c.exponentialSpan ≤ x - c.quadraticMax) :
    c.score power x = 0.0 := by
  obtain ⟨r, hr⟩ := exists_reads hc.accepted
  obtain ⟨a, ha⟩ := exists_denotes_of_isFinite hx
  obtain ⟨hbeyond, -⟩ := hr.one_le_progress ha hfar
  obtain ⟨w, hw, hone⟩ := hr.exists_one_le_power h ha hfar
  have hw₀ : 0 ≤ w := zero_le_one.trans hone
  have hlost : ¬ (w = ⊤ ∧ r.exponentialScale = 0) := by
    rw [← hr.loses_exponential_iff ha hbeyond hw hw₀, hc.loses_eq_false hx]
    exact Bool.false_ne_true
  have hrise₀ := hr.exponential_nonneg hw₀
  have hpenalty := denotes_roundHalfAway (hr.denotes_exponential hw hw₀ hlost) hrise₀
  -- A power of one would already take 100 points, and this one is no less.
  have hends : 100 ≤ toWhole (raised r.quadraticPenalty 1 r.exponentialScale) :=
    (denotes_hundred.le_iff hr.denotes_spanPenalty).mp hc.ends
  have hle := hends.trans (toWhole_mono (raised_mono hr.scale_nonneg hone))
  rw [score, hr.penalty_exponential ha hbeyond]
  exact (isSpent_hundred_sub hpenalty (isIntegral_toWhole hrise₀) hle).clampScore_eq

end Curve

/-! ## Files -/

namespace Profile

/-- A profile whose escalation starts where the complexity has no points left. -/
structure Idle (p : Profile) : Prop extends p.Steady where
  exhausts : p.curves.complexity.Exhausts
  late : p.curves.complexity.exponentialSpan ≤
    p.escalation.threshold - p.curves.complexity.quadraticMax

theorem idle_standard (mode : DuplicationMode) : (standard.withMode mode).Idle where
  toSteady := steady_standard mode
  exhausts := Curve.exhausts_complexity
  late := by
    show Curve.complexity.exponentialSpan ≤
      Escalation.standard.threshold - Curve.complexity.quadraticMax
    decide

variable {power : Power} {p : Profile} {f : SourceFile}

theorem Idle.complexityScore_eq_zero (hp : p.Idle) (h : power.Rising) {n : UInt32}
    (hn : p.escalation.threshold ≤ n.toFloat) : p.curves.complexityScore power n = 0.0 := by
  obtain ⟨r, hr⟩ := Curve.exists_reads hp.exhausts.accepted
  have hfar := Double.le_trans hp.late (sub_mono_left hr.quadraticMax hn)
  exact hp.exhausts.score_eq_zero h (isFinite_toFloat n) hfar

theorem Idle.escalation_nonneg (hp : p.Idle) (h : power.NonNegative) (n : UInt32) :
    0.0 ≤ p.escalation.penalty power n :=
  Escalation.penalty_nonneg h hp.accepted.escalation (by simp [Escalation.loses, hp.escalation])

theorem Idle.composeHealth_eq_zero (hp : p.Idle) (h : power.Rising) (h₀ : power.NonNegative)
    (hf : f.fault? = none) (hn : p.escalation.threshold ≤ f.metrics.complexity.toFloat) {e : Float}
    (he : 0.0 ≤ e) :
    composeHealth (p.measure power f).complexity (p.measure power f).duplication
      (p.measure power f).size e (p.measure power f).issuePenalty = 0.0 := by
  have hwhole := hp.measure_isWhole h₀ hf
  have hcomplexity : (p.measure power f).complexity = 0.0 := hp.complexityScore_eq_zero h hn
  rw [hcomplexity]
  exact composeHealth_zero hwhole.duplication hwhole.size he
    (Severity.Weights.penalty_nonneg hp.accepted.severities f.issues)

/-- Whatever the metrics of a file are, its health score is what it is without the escalation. -/
theorem Idle.health_eq (hp : p.Idle) (h : power.Rising) (h₀ : power.NonNegative)
    (hf : f.fault? = none) :
    (p.measure power f).health =
      composeHealth (p.measure power f).complexity (p.measure power f).duplication
        (p.measure power f).size 0.0 (p.measure power f).issuePenalty := by
  obtain ⟨r, hr⟩ := Escalation.exists_reads hp.accepted.escalation
  rcases le_total (f.metrics.complexity.toNat : ℝ) r.threshold with hfree | hlate
  · have hnone : p.escalation.penalty power f.metrics.complexity = 0.0 := hr.penalty_free hfree
    have hhealth : (p.measure power f).health = composeHealth (p.measure power f).complexity
        (p.measure power f).duplication (p.measure power f).size
        (p.escalation.penalty power f.metrics.complexity) (p.measure power f).issuePenalty := rfl
    rw [hhealth, hnone]
  · have hn : p.escalation.threshold ≤ f.metrics.complexity.toFloat :=
      (hr.threshold.coe_le_iff (denotes_toFloat_uint32 _)).mpr hlate
    have hzero : (0.0 : Float) ≤ 0.0 := le_self rfl
    rw [hp.composeHealth_eq_zero h h₀ hf hn hzero]
    exact hp.composeHealth_eq_zero h h₀ hf hn (hp.escalation_nonneg h₀ _)

/-- Under the standard profile, in either duplication mode, a file's health score is the same with
its escalation and with none: up to a complexity of 100 there is no escalation, and from there on
there are no points left, so that the health score is zero whatever the other metrics are. The sign
of powers counts only for bases below one, which are the complexities below 200: a negative power
would give points back there. -/
theorem scoreFile_standard_idle (h : power.Rising) (h₀ : power.NonNegative) (mode : DuplicationMode)
    (hf : f.validate = .ok ()) :
    ∃ a, (standard.withMode mode).scoreFile power f = .ok a ∧
      a.health =
        composeHealth a.complexity a.duplication a.size a.escalationPenalty a.issuePenalty ∧
      a.health = composeHealth a.complexity a.duplication a.size 0.0 a.issuePenalty ∧
      (f.metrics.complexity ≤ 100 → a.escalationPenalty = 0.0) ∧
      (100 ≤ f.metrics.complexity → a.complexity = 0.0 ∧ a.health = 0.0) := by
  rw [SourceFile.validate_eq_ok_iff] at hf
  have hp := idle_standard mode
  have hhundred : (100 : UInt32).toFloat = Escalation.standard.threshold := by decide
  refine ⟨_, scoreFile_eq_ok_iff.mpr ⟨hp.accepted, hf, rfl⟩, rfl, hp.health_eq h h₀ hf, ?_, ?_⟩
  · intro hle
    have hfree : f.metrics.complexity.toFloat ≤ Escalation.standard.threshold :=
      hhundred ▸ toFloat_mono hle
    exact if_pos hfree
  · intro hle
    have hn : Escalation.standard.threshold ≤ f.metrics.complexity.toFloat :=
      hhundred ▸ toFloat_mono hle
    exact ⟨hp.complexityScore_eq_zero h hn,
      hp.composeHealth_eq_zero h h₀ hf hn (hp.escalation_nonneg h₀ _)⟩

/-- A file with next to nothing wrong but its complexity, which takes the powers of 1.2 and of 0.1
at which `Power.steps` is exact. -/
def branchingFile : SourceFile := ⟨"a", ⟨110, 40, 0.0, 2⟩, [.low], default⟩

theorem scoreFile_standard_idle_branching :
    Power.steps.Rising ∧ Power.steps.NonNegative ∧ branchingFile.validate = .ok () ∧
      ∃ a, (standard.withMode .strict).scoreFile Power.steps branchingFile = .ok a ∧
        a.health = composeHealth a.complexity a.duplication a.size 0.0 a.issuePenalty ∧
        a.escalationPenalty = 2.0 ∧ a.size = 100.0 ∧ a.complexity = 0.0 ∧ a.health = 0.0 := by
  have hpower := Power.monotone_steps
  obtain ⟨a, ha, -, hhealth, -, hzero⟩ := scoreFile_standard_idle (f := branchingFile) hpower.rising
    hpower.nonNegative .strict rfl
  obtain ⟨hcomplexity, hlost⟩ := hzero (by decide)
  obtain ⟨-, -, rfl⟩ := scoreFile_eq_ok_iff.mp ha
  exact ⟨hpower.rising, hpower.nonNegative, rfl, _, ha, hhealth, by decide,
    by decide, hcomplexity, hlost⟩

end Profile

end CodeQuality
