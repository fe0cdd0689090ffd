import CodeQuality.Proofs.Curves.Steady

/-!
Files in the order of what is measured.

If a file gets worse in a metric or gains issues, each of its sub-scores and its health score is at
most what it was, and each penalty at least. This holds under every profile with steady curves, in
particular under the standard one in both duplication modes.
-/

namespace CodeQuality

open Double

/-! ## Health -/

/-- The health score rises with each of its three scores and falls with both penalties. -/
theorem composeHealth_mono {c c' d d' s s' e e' i i' : Float} (hc : c ≤ c') (hc' : c' ≤ 100.0)
    (hd : d ≤ d') (hd' : d' ≤ 100.0) (hs : s ≤ s') (hs' : s' ≤ 100.0) (he : e' ≤ e)
    (he' : 0.0 ≤ e') (hi : i' ≤ i) (hi' : 0.0 ≤ i') :
    composeHealth c d s e i ≤ composeHealth c' d' s' e' i' := by
  obtain ⟨hc₀, hlackc⟩ := lack_mono hc hc'
  obtain ⟨hd₀, hlackd⟩ := lack_mono hd hd'
  obtain ⟨hs₀, hlacks⟩ := lack_mono hs hs'
  have hfull : (100.0 : Float) ≤ 100.0 := (denotes_hundred.le_iff denotes_hundred).mpr le_rfl
  -- Five subtractions one after the other, each of which keeps the order and the bound.
  have h₁ := sub_mono hfull hfull hlackc hc₀
  have b₁ := sub_le_hundred hfull hc₀
  have h₂ := sub_mono h₁ b₁ he he'
  have b₂ := sub_le_hundred b₁ he'
  have h₃ := sub_mono h₂ b₂ hlacks hs₀
  have b₃ := sub_le_hundred b₂ hs₀
  have h₄ := sub_mono h₃ b₃ hlackd hd₀
  have b₄ := sub_le_hundred b₃ hd₀
  exact clampScore_mono (sub_mono h₄ b₄ hi hi')

/-! ## Issues -/

theorem Severity.Weights.weight_nonneg {w : Severity.Weights} (h : w.fault? = none)
    (severity : Severity) : 0.0 ≤ w.weight severity := by
  obtain ⟨a, ha, ha₀⟩ := exists_weight h severity
  exact nonneg_of_denotes ha (EReal.coe_nonneg.mpr ha₀)

theorem Severity.Weights.penalty_nonneg {w : Severity.Weights} (h : w.fault? = none)
    (issues : List Severity) : 0.0 ≤ w.penalty issues := by
  obtain ⟨v, hv, hv₀⟩ := exists_penalty h issues
  exact nonneg_of_denotes hv hv₀

/-- Taking issues out of a list, wherever they stand, makes its points no more. -/
theorem Severity.Weights.penalty_le_of_sublist {w : Severity.Weights} (h : w.fault? = none)
    {fewer more : List Severity} (hsub : fewer.Sublist more) :
    w.penalty fewer ≤ w.penalty more := by
  have hzero : (0.0 : Float) ≤ -0.0 := by decide
  have hsum (issues : List Severity) :
      w.penalty issues = (issues.map w.weight).foldl (· + ·) (-0.0) := List.foldl_map.symm
  rw [hsum, hsum]
  apply sum_le_sum_of_sublist (hsub.map w.weight) _ hzero (le_self rfl)
  intro x hx
  obtain ⟨severity, -, rfl⟩ := List.mem_map.mp hx
  exact weight_nonneg h severity

/-! ## The escalation -/

theorem Escalation.penalty_nonneg {power : Power} (h : power.NonNegative) {e : Escalation}
    (he : e.fault? = none) {complexity : UInt32} (hlost : e.loses power complexity = false) :
    0.0 ≤ e.penalty power complexity := by
  obtain ⟨r, hr⟩ := exists_reads he
  have hpenalty := hr.penalty_spec h complexity
  rw [if_neg (by simp [hlost])] at hpenalty
  obtain ⟨v, hv, hdenotes⟩ := hpenalty
  exact nonneg_of_denotes hdenotes (toWhole_zero ▸ toWhole_mono hv)

theorem Escalation.isNaN_or_penalty_nonneg {power : Power} (h : power.NonNegative)
    {e : Escalation} (he : e.fault? = none) (complexity : UInt32) :
    (e.penalty power complexity).isNaN = true ∨ 0.0 ≤ e.penalty power complexity := by
  cases hlost : e.loses power complexity with
  | false => exact .inr (penalty_nonneg h he hlost)
  | true =>
    obtain ⟨r, hr⟩ := exists_reads he
    have hpenalty := hr.penalty_spec h complexity
    rw [if_pos hlost] at hpenalty
    exact .inl hpenalty

/-! ## Files -/

/-- A file is no worse than another if no metric is higher and its issues are among the other's,
in the same order. -/
structure SourceFile.NoWorse (f g : SourceFile) : Prop where
  complexity : f.metrics.complexity ≤ g.metrics.complexity
  lines : f.metrics.lines ≤ g.metrics.lines
  duplication : f.metrics.duplication ≤ g.metrics.duplication
  issues : f.issues.Sublist g.issues

/-- No score of the first file is below that of the second, and no penalty is above. -/
structure FileScore.NoWorse (a b : FileScore) : Prop where
  complexity : b.complexity ≤ a.complexity
  size : b.size ≤ a.size
  duplication : b.duplication ≤ a.duplication
  issuePenalty : a.issuePenalty ≤ b.issuePenalty
  escalationPenalty : a.escalationPenalty ≤ b.escalationPenalty
  health : b.health ≤ a.health

theorem toFloat_mono {m n : UInt32} (h : m ≤ n) : m.toFloat ≤ n.toFloat := by
  rw [(denotes_toFloat_uint32 m).coe_le_iff (denotes_toFloat_uint32 n)]
  exact Nat.cast_le.mpr (UInt32.le_iff_toNat_le.mp h)

namespace Profile

/-- An accepted profile whose curves in use are steady, and whose escalation is not flat. -/
structure Steady (p : Profile) : Prop where
  accepted : p.Accepted
  complexity : p.curves.complexity.Steady
  size : p.curves.size.Steady
  duplication : (p.curves.duplication p.mode).Steady
  escalation : (p.escalation.scale == 0.0) = false

theorem steady_standard (mode : DuplicationMode) : (standard.withMode mode).Steady where
  accepted := accepted_standard.withMode mode
  complexity := Curve.steady_complexity
  size := Curve.steady_size
  duplication := by
    cases mode
    · exact Curve.steady_duplicationLegacy
    · exact Curve.steady_duplicationStrict
  escalation := by
    show (Escalation.standard.scale == 0.0) = false
    decide

variable {power : Power} {p : Profile} {f g : SourceFile}

theorem Steady.measure_isWhole (hp : p.Steady) (h : power.NonNegative) (hf : f.fault? = none) :
    (p.measure power f).IsWhole where
  complexity := hp.complexity.isWholeScore h (isFinite_toFloat _)
  size := hp.size.isWholeScore h (isFinite_toFloat _)
  duplication := hp.duplication.isWholeScore h (SourceFile.isFinite_duplication hf)

theorem Steady.measure_noWorse (hp : p.Steady) (h : power.Monotone) (hf : f.fault? = none)
    (hg : g.fault? = none) (hfg : f.NoWorse g) :
    (p.measure power f).NoWorse (p.measure power g) := by
  have hfinite := SourceFile.isFinite_duplication hf
  have hfinite' := SourceFile.isFinite_duplication hg
  have hwhole := hp.measure_isWhole h.nonNegative hf
  have hcomplexity := hp.complexity.score_anti h (isFinite_toFloat _) (isFinite_toFloat _)
    (toFloat_mono hfg.complexity)
  have hsize := hp.size.score_anti h (isFinite_toFloat _) (isFinite_toFloat _)
    (toFloat_mono hfg.lines)
  have hduplication := hp.duplication.score_anti h hfinite hfinite' hfg.duplication
  have hissues := Severity.Weights.penalty_le_of_sublist hp.accepted.severities hfg.issues
  have hissues₀ := Severity.Weights.penalty_nonneg hp.accepted.severities f.issues
  obtain ⟨hescalation₀, hescalation⟩ :=
    Escalation.penalty_mono h hp.accepted.escalation hp.escalation hfg.complexity
  exact
    { complexity := hcomplexity
      size := hsize
      duplication := hduplication
      issuePenalty := hissues
      escalationPenalty := hescalation
      health := composeHealth_mono hcomplexity hwhole.complexity.le_hundred hduplication
        hwhole.duplication.le_hundred hsize hwhole.size.le_hundred hescalation hescalation₀
        hissues hissues₀ }

/-- Under the standard profile, in either duplication mode, no score of a file rises and no penalty
falls when the file gets worse. -/
theorem scoreFile_standard_noWorse (h : power.Monotone) (mode : DuplicationMode)
    (hf : f.validate = .ok ()) (hg : g.validate = .ok ()) (hfg : f.NoWorse g) :
    ∃ a b, (standard.withMode mode).scoreFile power f = .ok a ∧
      (standard.withMode mode).scoreFile power g = .ok b ∧
      b.complexity ≤ a.complexity ∧ b.size ≤ a.size ∧ b.duplication ≤ a.duplication ∧
      a.issuePenalty ≤ b.issuePenalty ∧ a.escalationPenalty ≤ b.escalationPenalty ∧
      b.health ≤ a.health := by
  rw [SourceFile.validate_eq_ok_iff] at hf hg
  have hp := steady_standard mode
  have hscores := hp.measure_noWorse h hf hg hfg
  exact ⟨_, _, scoreFile_eq_ok_iff.mpr ⟨hp.accepted, hf, rfl⟩,
    scoreFile_eq_ok_iff.mpr ⟨hp.accepted, hg, rfl⟩, hscores.complexity, hscores.size,
    hscores.duplication, hscores.issuePenalty, hscores.escalationPenalty, hscores.health⟩

/-- A file and what becomes of it when every metric rises and issues are found in between. -/
def beforeGrowth : SourceFile := ⟨"a", ⟨19, 450, 0.05, 4⟩, [.high, .low], default⟩

def afterGrowth : SourceFile := ⟨"a", ⟨35, 480, 0.25, 6⟩, [.low, .high, .medium, .low], default⟩

theorem noWorse_growth : beforeGrowth.NoWorse afterGrowth :=
  ⟨by decide, by decide, by decide, by decide⟩

theorem scoreFile_standard_noWorse_growth :
    Power.square.Monotone ∧ beforeGrowth.validate = .ok () ∧ afterGrowth.validate = .ok () ∧
      beforeGrowth.NoWorse afterGrowth ∧
      ∃ a b, (standard.withMode .legacy).scoreFile Power.square beforeGrowth = .ok a ∧
        (standard.withMode .legacy).scoreFile Power.square afterGrowth = .ok b ∧
        b.complexity ≤ a.complexity ∧ b.size ≤ a.size ∧ b.duplication ≤ a.duplication ∧
        a.issuePenalty ≤ b.issuePenalty ∧ a.escalationPenalty ≤ b.escalationPenalty ∧
        b.health ≤ a.health :=
  ⟨Power.monotone_square, rfl, rfl, noWorse_growth,
    scoreFile_standard_noWorse Power.monotone_square .legacy rfl rfl noWorse_growth⟩

end Profile

end CodeQuality
