import CodeQuality.Proofs.Criticism
import CodeQuality.Proofs.OverallScores

/-!
The three numbers of a file that have no upper bound.

Points for issues, the escalation and criticism are sums and products of numbers from zero on. So
none of them is below zero, but each may be infinite. Which coefficients keep them finite for every
file is decided by a bound on the weights of issues, by the criticism of one greatest file and by
the powers of the escalation.
-/

namespace CodeQuality

open Double

/-! ## Points for issues -/

namespace Severity.Weights

variable {w : Severity.Weights}

/-- No weight is greater than what a large sum absorbs. -/
def Absorbed (w : Severity.Weights) : Prop :=
  ∀ (severity : Severity) (a : ℝ), Denotes (w.weight severity) a → a ≤ greatestAbsorbed

theorem isFinite_penalty (h : w.fault? = none) (habsorbed : w.Absorbed) (issues : List Severity) :
    (w.penalty issues).isFinite = true := by
  have hweights : ∀ x ∈ issues.map w.weight,
      ∃ a : ℝ, Denotes x a ∧ 0 ≤ a ∧ a ≤ greatestAbsorbed := by
    intro x hx
    obtain ⟨severity, -, rfl⟩ := List.mem_map.mp hx
    obtain ⟨a, ha, ha₀⟩ := exists_weight h severity
    exact ⟨a, ha, ha₀, habsorbed severity a ha⟩
  have hsaturation : (0 : EReal) ≤ saturation := EReal.coe_nonneg.mpr (two_zpow_pos _).le
  obtain ⟨v, hv, hv₀, hv₁⟩ := exists_sum_le _ hweights _ ⟨0, denotes_neg_zero, le_rfl, hsaturation⟩
  obtain ⟨r, hr, -⟩ := exists_real hv₀ hv₁
  rw [penalty_eq]
  exact hv.isFinite_iff.mpr ⟨r, hr⟩

theorem absorbed_of_le_hundred (h : ∀ severity, w.weight severity ≤ 100.0) : w.Absorbed := by
  intro severity a ha
  have hle := (ha.le_iff denotes_hundred).mp (h severity)
  rw [hundred_eq, EReal.coe_le_coe_iff] at hle
  calc a ≤ ((100 : ℕ) : ℝ) := hle
    _ ≤ 2 ^ (7 : ℤ) := by norm_num
    _ ≤ greatestAbsorbed := two_zpow_mono (by norm_num)

/-- Every list of issues has a finite penalty exactly if all weights are absorbed. -/
theorem absorbed_iff (h : w.fault? = none) :
    w.Absorbed ↔ ∀ issues, (w.penalty issues).isFinite = true := by
  constructor
  · exact isFinite_penalty h
  · intro hfinite severity a ha
    by_contra hgreat
    obtain ⟨n, hn⟩ := exists_sum_infinite ha (not_le.mp hgreat)
    have hpenalty := hfinite (List.replicate n severity)
    rw [penalty_eq, List.map_replicate, hn] at hpenalty
    exact Bool.noConfusion hpenalty

end Severity.Weights

/-! ## Criticism -/

/-- Nothing that a criticism score counts is more than this. -/
def Metrics.greatest : Metrics := ⟨4294967295, 4294967295, 1.0, 0⟩

def Coupling.greatest : Coupling := ⟨4294967295, 4294967295, true⟩

theorem le_greatestWord (n : UInt32) : n ≤ 4294967295 :=
  UInt32.le_iff_toNat_le.mpr (Nat.le_of_lt_succ n.toNat_lt)

namespace Criticism.Weights

variable {w : Criticism.Weights}

/-- No file is criticised more than the greatest. -/
theorem score_le_greatest (h : w.fault? = none) {m : Metrics} (hm : m.duplication ≤ 1.0)
    (c : Coupling) : w.score m c ≤ w.score .greatest .greatest :=
  score_mono h ⟨le_greatestWord _, le_greatestWord _, .inl hm, le_greatestWord _,
    le_greatestWord _, fun _ => rfl⟩

theorem isFinite_score (h : w.fault? = none)
    (hgreatest : (w.score .greatest .greatest).isFinite = true) {m : Metrics}
    (hm : m.duplication ≤ 1.0) (c : Coupling) : (w.score m c).isFinite = true :=
  isFinite_of_le (score_nonneg h m c) (score_le_greatest h hm c) hgreatest

end Criticism.Weights

/-! ## The escalation -/

namespace Escalation

variable {power : Power} {e : Escalation}

theorem toWhole_eq_top_iff {v : EReal} : toWhole v = ⊤ ↔ v = ⊤ := by
  induction v with
  | bot => exact Iff.rfl
  | top => exact Iff.rfl
  | coe r => exact iff_of_false (EReal.coe_ne_top _) (EReal.coe_ne_top r)

/-- Past the threshold the penalty is infinite exactly if the scaled power is. -/
theorem isInf_penalty_iff (h : power.NonNegative) (he : e.fault? = none) (n : UInt32) :
    (e.penalty power n).isInf = true ↔
      e.threshold < n.toFloat ∧ (e.rise power n.toFloat).isInf = true := by
  obtain ⟨r, hr⟩ := exists_reads he
  rw [hr.threshold.coe_lt_iff (denotes_toFloat_uint32 n)]
  by_cases hn : (n.toNat : ℝ) ≤ r.threshold
  · rw [hr.penalty_free hn, isInf_eq_false_of_isFinite (by decide)]
    exact iff_of_false Bool.false_ne_true fun hbeyond => not_lt.mpr hn hbeyond.1
  · have hbeyond := not_le.mp hn
    obtain ⟨w, hpower, hw⟩ := hr.exists_growth h hbeyond
    rw [hr.penalty_beyond hbeyond]
    show _ ↔ _ ∧ (e.growth power n * e.scale).isInf = true
    by_cases hlost : w = ⊤ ∧ r.scale = 0
    · -- Neither the penalty nor what it is rounded from is a number.
      have hnan := isNaN_mul_of_overflow (hlost.1 ▸ hpower) hr.scale hlost.2
      rw [isInf_eq_false_of_isNaN hnan, isInf_eq_false_of_isNaN (isNaN_roundHalfAway hnan)]
      exact iff_of_false Bool.false_ne_true fun h => Bool.false_ne_true h.2
    · obtain ⟨hrise, hrise₀⟩ := hr.denotes_rise hpower hw hlost
      have hpenalty := denotes_roundHalfAway hrise hrise₀
      have hpenalty₀ : 0 ≤ toWhole (nearest (w * r.scale)) := toWhole_zero ▸ toWhole_mono hrise₀
      rw [hpenalty.isInf_iff_eq_top hpenalty₀, hrise.isInf_iff_eq_top hrise₀, toWhole_eq_top_iff]
      exact (and_iff_right hbeyond).symm

end Escalation

/-! ## Profiles that keep all three finite -/

theorem SourceFile.duplication_le_one {f : SourceFile} (h : f.fault? = none) :
    f.metrics.duplication ≤ 1.0 := by
  unfold SourceFile.fault? at h
  split_ifs at h with hpath hrange
  rw [Bool.or_eq_true, not_or, Bool.not_eq_true', Bool.not_eq_true', Bool.not_eq_false,
    Bool.not_eq_false] at hrange
  exact (inUnitInterval_iff.mp hrange.2).2

/-- A file with some issues and some complexity that is the greatest in everything else. -/
def SourceFile.extreme (complexity : UInt32) (issues : List Severity) : SourceFile :=
  ⟨"a", { Metrics.greatest with complexity }, issues, .greatest⟩

theorem SourceFile.fault?_extreme (complexity : UInt32) (issues : List Severity) :
    (extreme complexity issues).fault? = none := by
  have hpath : ¬ isBlankText "a" = true := by decide
  have hrange : ¬ (!(1.0 : Float).isFinite || !inUnitInterval 1.0) = true := by decide
  exact (if_neg hpath).trans (if_neg hrange)

namespace Profile

/-- Coefficients with which nothing that is counted in a file makes a number infinite. -/
structure Bounded (power : Power) (p : Profile) : Prop where
  severities : p.severities.Absorbed
  criticism : (p.criticism.score .greatest .greatest).isFinite = true
  escalation : ∀ n : UInt32, p.escalation.threshold < n.toFloat →
    (p.escalation.rise power n.toFloat).isInf = false

/-- The bounds are exactly what it takes for every accepted file. -/
theorem Accepted.bounded_iff {power : Power} (h : power.NonNegative) {p : Profile}
    (hp : p.Accepted) :
    p.Bounded power ↔ ∀ f : SourceFile, f.fault? = none →
      (p.measure power f).criticism.toFloat.isInf = false ∧
        (p.measure power f).issuePenalty.isInf = false ∧
        (p.measure power f).escalationPenalty.isInf = false := by
  constructor
  · intro hbounded f hf
    refine ⟨?_, ?_, ?_⟩
    · rw [toFloat_criticism_measure]
      exact isInf_eq_false_of_isFinite (Criticism.Weights.isFinite_score hp.criticism
        hbounded.criticism (SourceFile.duplication_le_one hf) f.coupling)
    · exact isInf_eq_false_of_isFinite
        (Severity.Weights.isFinite_penalty hp.severities hbounded.severities f.issues)
    · rw [Bool.eq_false_iff, ne_eq, show (p.measure power f).escalationPenalty =
        p.escalation.penalty power f.metrics.complexity from rfl,
        Escalation.isInf_penalty_iff h hp.escalation]
      rintro ⟨hbeyond, hinf⟩
      rw [hbounded.escalation _ hbeyond] at hinf
      exact Bool.noConfusion hinf
  · intro hall
    have hextreme (n : UInt32) (issues : List Severity) :=
      hall (SourceFile.extreme n issues) (SourceFile.fault?_extreme n issues)
    refine ⟨?_, ?_, ?_⟩
    · rw [Severity.Weights.absorbed_iff hp.severities]
      intro issues
      rw [isFinite_iff_of_nonneg (Severity.Weights.penalty_nonneg hp.severities issues)]
      exact (hextreme 0 issues).2.1
    · rw [isFinite_iff_of_nonneg (Criticism.Weights.score_nonneg hp.criticism _ _)]
      have hcriticism := (hextreme 4294967295 []).1
      rwa [toFloat_criticism_measure] at hcriticism
    · intro n hbeyond
      by_contra hinf
      have hpenalty := (Escalation.isInf_penalty_iff h hp.escalation n).mpr
        ⟨hbeyond, Bool.eq_true_of_not_eq_false hinf⟩
      have hfinite : (p.escalation.penalty power n).isInf = false := (hextreme n []).2.2
      rw [hfinite] at hpenalty
      exact Bool.noConfusion hpenalty

/-- With a power that never falls, the greatest complexity decides on the escalation. -/
theorem Accepted.bounded_of_greatest {power : Power} (h : power.Monotone) {p : Profile}
    (hp : p.Accepted) (hseverities : p.severities.Absorbed)
    (hcriticism : (p.criticism.score .greatest .greatest).isFinite = true)
    (hescalation : (p.escalation.penalty power 4294967295).isFinite = true) : p.Bounded power := by
  refine ⟨hseverities, hcriticism, fun n hbeyond => ?_⟩
  obtain ⟨r, hr⟩ := Escalation.exists_reads hp.escalation
  obtain ⟨b, hb⟩ := exists_denotes_of_isFinite hescalation
  rw [Bool.eq_false_iff]
  intro hinf
  have hpenalty := (Escalation.isInf_penalty_iff h.nonNegative hp.escalation n).mpr ⟨hbeyond, hinf⟩
  have hspec := hr.penalty_spec h.nonNegative n
  split_ifs at hspec with hlost
  · rw [isInf_eq_false_of_isNaN hspec] at hpenalty
    exact Bool.noConfusion hpenalty
  · obtain ⟨v, hv, hdenotes⟩ := hspec
    have htop := (hdenotes.isInf_iff_eq_top (toWhole_zero ▸ toWhole_mono hv)).mp hpenalty
    have hword : (n.toNat : ℝ) ≤ (4294967295 : UInt32).toNat :=
      Nat.cast_le.mpr (UInt32.le_iff_toNat_le.mp (le_greatestWord n))
    have hle := hr.penalty_mono h hword hdenotes hb
    rw [htop, top_le_iff] at hle
    exact EReal.coe_ne_top b hle

theorem bounded_standard : standard.Bounded Power.square := by
  refine accepted_standard.bounded_of_greatest Power.monotone_square ?_ ?_ ?_
  · apply Severity.Weights.absorbed_of_le_hundred
    intro severity
    cases severity <;> decide
  · decide
  · decide

end Profile

end CodeQuality
