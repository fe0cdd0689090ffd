import CodeQuality.Proofs.Double.Scale
import CodeQuality.Proofs.Double.Sums
import CodeQuality.Proofs.Scores

/-!
The order of the issues of a file.

The issues enter two numbers of a score: the points for them, which are added up in the order of
the issues, and the health score. Each addition may be rounded, and then another order may end in
another last digit. The order has no effect where the additions are exact, as with whole weights,
nor on one or two issues. Elsewhere the points stay as near to the exact sum as one rounding for
each issue allows, and health changes by no more than the points do, up to its own rounding.
-/

namespace CodeQuality

open Double

/-! ## Points -/

namespace Severity.Weights

variable {w : Severity.Weights}

theorem isAmount_weight (h : w.fault? = none) (issues : List Severity) :
    ∀ x ∈ issues.map w.weight, IsAmount x := by
  intro x hx
  obtain ⟨severity, -, rfl⟩ := List.mem_map.mp hx
  exact exists_weight h severity

/-- The points for some issues without rounding. -/
noncomputable def exactPenalty (w : Severity.Weights) (issues : List Severity) : ℝ :=
  exactSum (issues.map w.weight)

theorem nearSum_penalty (h : w.fault? = none) (issues : List Severity) :
    ∃ v, Denotes (w.penalty issues) v ∧ NearSum issues.length (w.exactPenalty issues) v := by
  have hzero : Denotes (-0.0) ((0 : ℝ) : EReal) := by exact_mod_cast denotes_neg_zero
  obtain ⟨v, hv, hnear⟩ := nearSum_sum (isAmount_weight h issues) hzero le_rfl
  rw [zero_add, List.length_map] at hnear
  rw [penalty_eq]
  exact ⟨v, hv, hnear⟩

theorem penalty_eq_of_denotes (h : w.fault? = none) {issues issues' : List Severity}
    (hperm : issues.Perm issues') {v : EReal} (hv : Denotes (w.penalty issues) v)
    (hv' : Denotes (w.penalty issues') v) : w.penalty issues = w.penalty issues' := by
  rw [penalty_eq] at hv hv' ⊢
  rw [penalty_eq]
  exact sum_eq_of_perm (hperm.map w.weight) (isAmount_weight h issues) hv hv'

/-- No addition of the points is rounded. -/
def AddExactly (w : Severity.Weights) (issues : List Severity) : Prop :=
  AddsExactly (issues.map w.weight)

theorem AddExactly.denotes_penalty {issues : List Severity} (h : w.AddExactly issues) :
    Denotes (w.penalty issues) (nearest (w.exactPenalty issues)) := by
  obtain ⟨e, he, hweights, hsum⟩ := h
  have hstart : Denotes (-0.0) (nearest (((0 : ℕ) * 2 ^ e : ℝ) : EReal)) := by
    rw [Nat.cast_zero, zero_mul, EReal.coe_zero, nearest_zero]
    exact denotes_neg_zero
  have hexact : ((0 : ℕ) : ℝ) * 2 ^ e + exactSum (issues.map w.weight) = w.exactPenalty issues := by
    rw [Nat.cast_zero, zero_mul, zero_add]
    rfl
  have hpenalty := denotes_sum_units he hweights hstart
  rw [hexact] at hpenalty
  rw [penalty_eq]
  exact hpenalty hsum

theorem exactPenalty_perm {issues issues' : List Severity} (hperm : issues.Perm issues') :
    w.exactPenalty issues = w.exactPenalty issues' :=
  exactSum_perm (hperm.map w.weight)

theorem AddExactly.penalty_perm (h : w.fault? = none) {issues issues' : List Severity}
    (hexact : w.AddExactly issues) (hperm : issues.Perm issues') :
    w.penalty issues = w.penalty issues' := by
  have hexact' : w.AddExactly issues' := hexact.perm (hperm.map w.weight)
  have hpenalty' := hexact'.denotes_penalty
  rw [← exactPenalty_perm hperm] at hpenalty'
  exact penalty_eq_of_denotes h hperm hexact.denotes_penalty hpenalty'

/-- Whole weights add up exactly as long as the sum is at most `2 ^ 53`. -/
theorem addExactly_of_whole {issues : List Severity}
    (hwhole : ∀ severity ∈ issues, ∃ n : ℕ, Denotes (w.weight severity) (n : ℝ))
    (hsum : w.exactPenalty issues ≤ 2 ^ 53) : w.AddExactly issues := by
  refine ⟨0, by norm_num, ?_, by rwa [zpow_zero, mul_one]⟩
  intro x hx
  obtain ⟨severity, hmem, rfl⟩ := List.mem_map.mp hx
  obtain ⟨n, hn⟩ := hwhole severity hmem
  exact ⟨n, by rwa [zpow_zero, mul_one]⟩

theorem denotes_penalty_pair (h : w.fault? = none) (a b : Severity) :
    Denotes (w.penalty [a, b])
      (nearest ((amount (w.weight a) + amount (w.weight b) : ℝ) : EReal)) := by
  have ha : IsAmount (w.weight a) := exists_weight h a
  have hb : IsAmount (w.weight b) := exists_weight h b
  have hfirst := denotes_neg_zero.add ha.denotes
    (not_cancels_of_nonneg le_rfl (EReal.coe_nonneg.mpr ha.nonneg))
  rw [zero_add, ha.denotes.nearest_eq] at hfirst
  exact hfirst.add hb.denotes (not_cancels_of_coe_left _ _)

/-- The order of one or two issues has no effect. -/
theorem penalty_perm_of_length_le_two (h : w.fault? = none) {issues issues' : List Severity}
    (hlength : issues.length ≤ 2) (hperm : issues.Perm issues') :
    w.penalty issues = w.penalty issues' := by
  match issues with
  | [] => rw [List.nil_perm.mp hperm]
  | [a] => rw [List.singleton_perm.mp hperm]
  | [a, b] =>
    rcases List.pair_perm.mp hperm with rfl | rfl
    · rfl
    · have hpenalty := denotes_penalty_pair h b a
      rw [add_comm] at hpenalty
      exact penalty_eq_of_denotes h hperm (denotes_penalty_pair h a b) hpenalty
  | _ :: _ :: _ :: _ => exact absurd hlength (by simp)

end Severity.Weights

/-! ## Health -/

theorem within_composeHealth {c d s e i i' : Float} {r r' : ℝ} (hi : Denotes i r)
    (hi' : Denotes i' r') :
    Within (|r - r'| + 2 * scaleError) (composeHealth c d s e i) (composeHealth c d s e i') :=
  within_clampScore_sub hi hi'

/-! ## Files -/

/-- Scores that agree in all that the issues do not enter. -/
structure FileScore.SameButIssues (a b : FileScore) : Prop where
  path : a.path = b.path
  complexity : a.complexity = b.complexity
  duplication : a.duplication = b.duplication
  size : a.size = b.size
  criticism : a.criticism = b.criticism
  escalationPenalty : a.escalationPenalty = b.escalationPenalty
  flags : a.flags = b.flags

/-- What rounding may do to the scores of a file whose issues are added up in two orders: both
sums are near the exact one, and health changes with them. -/
structure FileScore.SameUpToRounding (a b : FileScore) (count : ℕ) (exact : ℝ) : Prop where
  left : ∃ v, Denotes a.issuePenalty v ∧ NearSum count exact v
  right : ∃ v, Denotes b.issuePenalty v ∧ NearSum count exact v
  health : ∀ r r' : ℝ, Denotes a.issuePenalty r → Denotes b.issuePenalty r' →
    Within (|r - r'| + 2 * scaleError) a.health b.health

namespace Profile

variable {power : Power} {p : Profile} {f : SourceFile} {issues : List Severity}

theorem measure_eq_of_penalty_eq
    (h : p.severities.penalty f.issues = p.severities.penalty issues) :
    p.measure power f = p.measure power { f with issues } := by
  unfold measure
  simp only [h]

theorem sameUpToRounding_measure (hp : p.Accepted) (hperm : f.issues.Perm issues) :
    (p.measure power f).SameUpToRounding (p.measure power { f with issues }) f.issues.length
      (p.severities.exactPenalty f.issues) where
  left := Severity.Weights.nearSum_penalty hp.severities f.issues
  right := by
    rw [hperm.length_eq, Severity.Weights.exactPenalty_perm hperm]
    exact Severity.Weights.nearSum_penalty hp.severities issues
  health := fun _ _ hr hr' => within_composeHealth hr hr'

/-- The issues of a file are scored in every order if they are in one. The points for them and the
health score may differ in what the additions round, all else is the same; and so are these two if
no addition is rounded or there are at most two issues. -/
theorem scoreFile_issues_perm (hp : p.validate = .ok ()) (hf : f.validate = .ok ())
    (hperm : f.issues.Perm issues) :
    ∃ score score', p.scoreFile power f = .ok score ∧
      p.scoreFile power { f with issues } = .ok score' ∧ score.SameButIssues score' ∧
      (p.severities.AddExactly f.issues ∨ f.issues.length ≤ 2 → score = score') ∧
      score.SameUpToRounding score' f.issues.length (p.severities.exactPenalty f.issues) := by
  rw [Profile.validate_eq_ok_iff] at hp
  rw [SourceFile.validate_eq_ok_iff] at hf
  have hf' : SourceFile.fault? { f with issues } = none := hf
  refine ⟨p.measure power f, p.measure power { f with issues },
    Profile.scoreFile_eq_ok_iff.mpr ⟨hp, hf, rfl⟩, Profile.scoreFile_eq_ok_iff.mpr ⟨hp, hf', rfl⟩,
    ⟨rfl, rfl, rfl, rfl, rfl, rfl, rfl⟩, ?_, sameUpToRounding_measure hp hperm⟩
  rintro (hexact | hlength)
  · exact measure_eq_of_penalty_eq (hexact.penalty_perm hp.severities hperm)
  · exact measure_eq_of_penalty_eq
      (Severity.Weights.penalty_perm_of_length_le_two hp.severities hlength hperm)

/-- A file with three issues, the gravest first. -/
def threeIssues : SourceFile := ⟨"a", ⟨1, 1, 0.0, 0⟩, [.critical, .high, .medium], default⟩

theorem scoreFile_issues_perm_standard :
    standard.validate = .ok () ∧ threeIssues.validate = .ok () ∧
      threeIssues.issues.Perm [.medium, .critical, .high] ∧
      standard.severities.AddExactly threeIssues.issues ∧
      ∃ score, standard.scoreFile Power.square threeIssues = .ok score ∧
        standard.scoreFile Power.square { threeIssues with issues := [.medium, .critical, .high] } =
          .ok score := by
  have hperm : threeIssues.issues.Perm [.medium, .critical, .high] := by decide
  have hwhole (n : ℕ) (hn : n ≤ 2 ^ 53) : Denotes (wholeFloat n) (n : ℝ) := denotes_wholeFloat hn
  have hcritical : Denotes (standard.severities.weight .critical) ((20 : ℕ) : ℝ) :=
    hwhole 20 (by norm_num)
  have hhigh : Denotes (standard.severities.weight .high) ((12 : ℕ) : ℝ) :=
    hwhole 12 (by norm_num)
  have hmedium : Denotes (standard.severities.weight .medium) ((6 : ℕ) : ℝ) :=
    hwhole 6 (by norm_num)
  have hexact : standard.severities.AddExactly threeIssues.issues := by
    apply Severity.Weights.addExactly_of_whole
    · intro severity hmem
      rcases List.mem_cons.mp hmem with rfl | hmem
      · exact ⟨_, hcritical⟩
      rcases List.mem_cons.mp hmem with rfl | hmem
      · exact ⟨_, hhigh⟩
      · exact List.mem_singleton.mp hmem ▸ ⟨_, hmedium⟩
    · show (amount _ + (amount _ + (amount _ + 0)) : ℝ) ≤ 2 ^ 53
      rw [hcritical.amount_eq, hhigh.amount_eq, hmedium.amount_eq]
      norm_num
  obtain ⟨score, score', hscore, hscore', -, heq, -⟩ :=
    @scoreFile_issues_perm Power.square standard threeIssues _ validate_standard rfl hperm
  exact ⟨validate_standard, rfl, hperm, hexact, score, hscore, heq (.inl hexact) ▸ hscore'⟩

/-- Weights that are no whole numbers, so that sums of three of them are rounded. -/
def fractionalWeights : Profile := { standard with severities := ⟨10.8, 5.4, 1.1, 2.0⟩ }

theorem accepted_fractionalWeights : fractionalWeights.Accepted := by
  have h := accepted_standard
  exact ⟨h.complexity, h.size, h.duplication, h.escalation, rfl, h.criticism, h.weighting⟩

/-- The order of three issues may show in the last digits of the points and of health. -/
theorem exists_issues_perm_ne :
    ¬ ∀ (power : Power) (p : Profile) (f : SourceFile) (issues : List Severity),
      p.validate = .ok () → f.validate = .ok () → f.issues.Perm issues →
        p.scoreFile power f = p.scoreFile power { f with issues } := by
  intro h
  have hp : fractionalWeights.validate = .ok () :=
    (validate_eq_ok_iff _).mpr accepted_fractionalWeights
  have hsame := h Power.square fractionalWeights threeIssues [.medium, .high, .critical] hp rfl
    (by decide)
  have hscored (f : SourceFile) (hf : f.fault? = none) :
      fractionalWeights.scoreFile Power.square f =
        .ok (fractionalWeights.measure Power.square f) :=
    scoreFile_eq_ok_iff.mpr ⟨accepted_fractionalWeights, hf, rfl⟩
  rw [hscored threeIssues rfl, hscored _ rfl, Except.ok.injEq] at hsame
  have hhealth := congrArg FileScore.health hsame
  have hne : (fractionalWeights.measure Power.square threeIssues).health ≠
      (fractionalWeights.measure Power.square
        { threeIssues with issues := [.medium, .high, .critical] }).health := by decide +kernel
  exact hne hhealth

end Profile

end CodeQuality
