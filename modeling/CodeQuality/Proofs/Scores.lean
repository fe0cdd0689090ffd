import CodeQuality.Proofs.Curves.Escalations
import CodeQuality.Proofs.Curves.Penalties
import CodeQuality.Proofs.Double.Order
import CodeQuality.Proofs.Validation

/-!
The scores of accepted files.

Under an accepted profile every score of an accepted file is on the scale from 0 to 100, the three
sub-scores are whole, and only a penalty that is no number can keep a score off the scale. When
that happens is decided by `Curve.loses` and `Escalation.loses`.
-/

namespace CodeQuality

open Double

/-! ## Numbers on the scale -/

/-- A whole number from 0 to 100; it may be the negative zero. -/
def IsWholeScore (x : Float) : Prop := ∃ n ≤ 100, (x == wholeFloat n) = true

/-- A number from 0 to 100. -/
def IsScore (x : Float) : Prop := 0.0 ≤ x ∧ x ≤ 100.0

/-- A file whose three sub-scores are whole. -/
structure FileScore.IsWhole (f : FileScore) : Prop where
  complexity : IsWholeScore f.complexity
  size : IsWholeScore f.size
  duplication : IsWholeScore f.duplication

theorem isWholeScore_iff {x : Float} : IsWholeScore x ↔ ∃ n ≤ 100, Denotes x ((n : ℕ) : ℝ) := by
  constructor
  · rintro ⟨n, hn, heq⟩
    have hwhole := denotes_wholeFloat (n := n) (by omega)
    rcases isNaN_or_denotes x with hnan | ⟨v, hv⟩
    · rw [not_beq_of_isNaN_left hnan] at heq
      exact Bool.noConfusion heq
    · obtain rfl := (hv.beq_iff hwhole).mp heq
      exact ⟨n, hn, hv⟩
  · rintro ⟨n, hn, hx⟩
    exact ⟨n, hn, (hx.beq_iff (denotes_wholeFloat (by omega))).mpr rfl⟩

theorem IsWholeScore.isNaN_eq_false {x : Float} (h : IsWholeScore x) : x.isNaN = false := by
  obtain ⟨n, -, hx⟩ := isWholeScore_iff.mp h
  exact hx.isNaN_eq_false

theorem IsWholeScore.nonneg {x : Float} (h : IsWholeScore x) : 0.0 ≤ x := by
  obtain ⟨n, -, hx⟩ := isWholeScore_iff.mp h
  exact nonneg_of_denotes hx (EReal.coe_nonneg.mpr (Nat.cast_nonneg n))

theorem IsWholeScore.le_hundred {x : Float} (h : IsWholeScore x) : x ≤ 100.0 := by
  obtain ⟨n, hn, hx⟩ := isWholeScore_iff.mp h
  rw [hx.le_iff denotes_hundred, hundred_eq]
  exact EReal.coe_le_coe_iff.mpr (Nat.cast_le.mpr hn)

theorem isScore_of_denotes {x : Float} {v : EReal} (hx : Denotes x v) (hlow : 0 ≤ v)
    (hhigh : v ≤ 100) : IsScore x :=
  ⟨(denotes_zero.le_iff hx).mpr hlow, (hx.le_iff denotes_hundred).mpr hhigh⟩

theorem isScore_clampScore {x : Float} {v : EReal} (hx : Denotes x v) : IsScore (clampScore x) :=
  isScore_of_denotes (denotes_clampScore hx) (le_max_left _ _)
    (max_le (by norm_num) (min_le_right _ _))

theorem isWholeScore_clampScore {p : Float} {v : EReal} (hp : Denotes p (toWhole v))
    (hv : 0 ≤ v) : IsWholeScore (clampScore (100.0 - p)) := by
  have hscore := denotes_clampScore_sub hp
  rw [isWholeScore_iff]
  induction v with
  | bot => exact absurd hv (by simp)
  | top =>
    -- An infinite penalty leaves nothing.
    refine ⟨0, by norm_num, ?_⟩
    rw [show toWhole ⊤ = ⊤ from rfl, remainder_top] at hscore
    simpa using hscore
  | coe a =>
    refine ⟨100 - ⌊a + 1 / 2⌋₊, Nat.sub_le _ _, ?_⟩
    rw [← remainder_natCast]
    exact hscore

/-- Whatever a penalty is rounded from, what is left of 100 points is whole or no number. -/
theorem isNaN_or_isWholeScore_clampScore (x : Float) :
    (clampScore (100.0 - roundHalfAway x)).isNaN = true ∨
      IsWholeScore (clampScore (100.0 - roundHalfAway x)) := by
  rcases isNaN_or_denotes x with hnan | ⟨v, hv⟩
  · exact .inl (isNaN_clampScore (isNaN_sub_right _ (isNaN_roundHalfAway hnan)))
  right
  rcases le_total 0 v with hpos | hneg
  · exact isWholeScore_clampScore (denotes_roundHalfAway hv hpos) hpos
  · obtain ⟨u, hu, hpenalty⟩ := exists_denotes_roundHalfAway_of_nonpos hv hneg
    -- A penalty below zero leaves the full score.
    have hfull : remainder u = ((100 : ℕ) : ℝ) := by
      have hzero : remainder 0 = ((100 : ℕ) : ℝ) := by simpa using remainder_natCast 0
      apply le_antisymm
      · rw [← hundred_eq]
        exact max_le (by norm_num) (min_le_right _ _)
      · exact hzero ▸ remainder_anti hu
    have hscore := denotes_clampScore_sub hpenalty
    rw [hfull] at hscore
    exact isWholeScore_iff.mpr ⟨100, le_rfl, hscore⟩

/-! ## Sub-scores -/

theorem Curve.score_spec {power : Power} (h : power.NonNegative) {c : Curve}
    (hc : c.fault? = none) {x : Float} (hx : x.isFinite = true) :
    if c.loses power x then (c.score power x).isNaN = true else IsWholeScore (c.score power x) := by
  obtain ⟨r, hr⟩ := Curve.exists_reads hc
  obtain ⟨a, ha⟩ := exists_denotes_of_isFinite hx
  have hpenalty := hr.penalty_spec h ha
  split_ifs with hlost
  · rw [if_pos hlost] at hpenalty
    exact isNaN_clampScore (isNaN_sub_right _ hpenalty)
  · rw [if_neg hlost] at hpenalty
    rcases hpenalty with ⟨v, hv, hdenotes⟩
    exact isWholeScore_clampScore hdenotes hv

theorem Curve.isNaN_or_isWholeScore (power : Power) (c : Curve) (x : Float) :
    (c.score power x).isNaN = true ∨ IsWholeScore (c.score power x) := by
  have hround : ∃ y, c.penalty power x = roundHalfAway y := by
    have hzero : (0.0 : Float) = roundHalfAway 0.0 := by decide +kernel
    unfold penalty
    split_ifs
    · exact ⟨0.0, hzero⟩
    all_goals exact ⟨_, rfl⟩
  obtain ⟨y, hy⟩ := hround
  unfold score
  rw [hy]
  exact isNaN_or_isWholeScore_clampScore y

theorem isFinite_toFloat (n : UInt32) : n.toFloat.isFinite = true :=
  (denotes_toFloat_uint32 n).isFinite_iff.mpr ⟨_, rfl⟩

theorem SourceFile.isFinite_duplication {f : SourceFile} (h : f.fault? = none) :
    f.metrics.duplication.isFinite = true := by
  unfold SourceFile.fault? at h
  split_ifs at h with hpath hrange
  rw [Bool.or_eq_true, not_or, Bool.not_eq_true', Bool.not_eq_false] at hrange
  exact hrange.1

/-! ## Issues -/

theorem exists_of_isNonNegative {x : Float} (h : isNonNegative x = true) :
    ∃ a : ℝ, Denotes x a ∧ 0 ≤ a := by
  unfold isNonNegative at h
  rw [Bool.and_eq_true, Bool.not_eq_true', decide_eq_false_iff_not] at h
  obtain ⟨a, ha⟩ := exists_denotes_of_isFinite h.1
  refine ⟨a, ha, ?_⟩
  have hlow := h.2
  rw [ha.lt_iff denotes_zero, not_lt] at hlow
  exact EReal.coe_nonneg.mp hlow

theorem Severity.Weights.exists_weight {w : Severity.Weights} (h : w.fault? = none)
    (severity : Severity) : ∃ a : ℝ, Denotes (w.weight severity) a ∧ 0 ≤ a := by
  unfold Severity.Weights.fault? at h
  rw [Option.map_eq_none_iff, List.find?_eq_none] at h
  have hmem : severity ∈ Severity.all := by cases severity <;> decide
  exact exists_of_isNonNegative (by simpa using h severity hmem)

theorem Severity.Weights.penalty_eq (w : Severity.Weights) (issues : List Severity) :
    w.penalty issues = (issues.map w.weight).foldl (· + ·) (-0.0) :=
  List.foldl_map.symm

/-- Points for issues are a number from zero on, infinity included. -/
theorem Severity.Weights.exists_penalty {w : Severity.Weights} (h : w.fault? = none)
    (issues : List Severity) : ∃ v, Denotes (w.penalty issues) v ∧ 0 ≤ v := by
  -- The sum starts from the negative zero, which is zero as a number.
  rw [Severity.Weights.penalty_eq]
  refine exists_sum _ ?_ _ ⟨0, denotes_neg_zero, le_rfl⟩
  intro x hx
  obtain ⟨severity, -, rfl⟩ := List.mem_map.mp hx
  obtain ⟨a, ha, hnonneg⟩ := Severity.Weights.exists_weight h severity
  exact ⟨a, ha, EReal.coe_nonneg.mpr hnonneg⟩

/-! ## Health -/

/-- Points taken from a number of at most 100 leave such a number. -/
theorem exists_sub {x y : Float} {u v : EReal} (hx : Denotes x u) (hu : u ≤ 100)
    (hy : Denotes y v) (hv : 0 ≤ v) : ∃ w ≤ 100, Denotes (x - y) w :=
  ⟨_, nearest_sub_le_hundred hu hv, denotes_sub_of_le_hundred hx hu hy hv⟩

theorem IsWholeScore.exists_lack {x : Float} (h : IsWholeScore x) :
    ∃ v, Denotes (100.0 - x) v ∧ 0 ≤ v := by
  obtain ⟨n, hn, hx⟩ := isWholeScore_iff.mp h
  refine ⟨_, denotes_hundred.sub hx ?_, ?_⟩
  · rw [hundred_eq]
    exact not_cancels_of_coe_left _ _
  · apply nearest_nonneg
    rw [hundred_eq, ← EReal.coe_sub]
    have : (n : ℝ) ≤ ((100 : ℕ) : ℝ) := Nat.cast_le.mpr hn
    exact_mod_cast sub_nonneg.mpr this

/-- Health is on the scale if no sub-score and neither penalty is lost. -/
theorem isScore_composeHealth {complexity duplication size escalation issues : Float}
    {u v : EReal} (hcomplexity : IsWholeScore complexity) (hduplication : IsWholeScore duplication)
    (hsize : IsWholeScore size) (hescalation : Denotes escalation u) (hu : 0 ≤ u)
    (hissues : Denotes issues v) (hv : 0 ≤ v) :
    IsScore (composeHealth complexity duplication size escalation issues) := by
  obtain ⟨c, hc, hc₀⟩ := hcomplexity.exists_lack
  obtain ⟨d, hd, hd₀⟩ := hduplication.exists_lack
  obtain ⟨s, hs, hs₀⟩ := hsize.exists_lack
  -- Five subtractions one after the other, none of which goes above 100.
  obtain ⟨w₁, hw₁, h₁⟩ := exists_sub denotes_hundred le_rfl hc hc₀
  obtain ⟨w₂, hw₂, h₂⟩ := exists_sub h₁ hw₁ hescalation hu
  obtain ⟨w₃, hw₃, h₃⟩ := exists_sub h₂ hw₂ hs hs₀
  obtain ⟨w₄, hw₄, h₄⟩ := exists_sub h₃ hw₃ hd hd₀
  obtain ⟨w₅, hw₅, h₅⟩ := exists_sub h₄ hw₄ hissues hv
  exact isScore_clampScore h₅

theorem isNaN_composeHealth {complexity duplication size escalation issues : Float}
    (h : complexity.isNaN = true ∨ duplication.isNaN = true ∨ size.isNaN = true ∨
      escalation.isNaN = true) :
    (composeHealth complexity duplication size escalation issues).isNaN = true := by
  apply isNaN_clampScore
  -- The points for issues are taken last; the other four subtractions pass it on.
  apply isNaN_sub_left
  rcases h with h | h | h | h
  · exact isNaN_sub_left (isNaN_sub_left (isNaN_sub_left
      (isNaN_sub_right _ (isNaN_sub_right _ h)) _) _) _
  · exact isNaN_sub_right _ (isNaN_sub_right _ h)
  · exact isNaN_sub_left (isNaN_sub_right _ (isNaN_sub_right _ h)) _
  · exact isNaN_sub_left (isNaN_sub_left (isNaN_sub_right _ h) _) _

/-! ## Files -/

namespace Profile

def losesScore (power : Power) (p : Profile) (f : SourceFile) : Bool :=
  p.curves.complexity.loses power f.metrics.complexity.toFloat
    || (p.curves.duplication p.mode).loses power f.metrics.duplication
    || p.curves.size.loses power f.metrics.lines.toFloat

/-- Whether a penalty that enters the health score of a file is no number. -/
def losesHealth (power : Power) (p : Profile) (f : SourceFile) : Bool :=
  p.losesScore power f || p.escalation.loses power f.metrics.complexity

theorem Accepted.measure_spec {power : Power} (h : power.NonNegative) {p : Profile}
    (hp : p.Accepted) {f : SourceFile} (hf : f.fault? = none) :
    (if p.curves.complexity.loses power f.metrics.complexity.toFloat then
        (p.measure power f).complexity.isNaN = true
      else IsWholeScore (p.measure power f).complexity) ∧
    (if (p.curves.duplication p.mode).loses power f.metrics.duplication then
        (p.measure power f).duplication.isNaN = true
      else IsWholeScore (p.measure power f).duplication) ∧
    (if p.curves.size.loses power f.metrics.lines.toFloat then
        (p.measure power f).size.isNaN = true
      else IsWholeScore (p.measure power f).size) ∧
    (if p.losesHealth power f then (p.measure power f).health.isNaN = true
      else IsScore (p.measure power f).health) := by
  have hcomplexity : if p.curves.complexity.loses power f.metrics.complexity.toFloat then
      (p.measure power f).complexity.isNaN = true
      else IsWholeScore (p.measure power f).complexity :=
    Curve.score_spec h hp.complexity (isFinite_toFloat _)
  have hduplication : if (p.curves.duplication p.mode).loses power f.metrics.duplication then
      (p.measure power f).duplication.isNaN = true
      else IsWholeScore (p.measure power f).duplication :=
    Curve.score_spec h (hp.duplication p.mode) (SourceFile.isFinite_duplication hf)
  have hsize : if p.curves.size.loses power f.metrics.lines.toFloat then
      (p.measure power f).size.isNaN = true else IsWholeScore (p.measure power f).size :=
    Curve.score_spec h hp.size (isFinite_toFloat _)
  obtain ⟨r, hr⟩ := Escalation.exists_reads hp.escalation
  have hescalation := hr.penalty_spec h f.metrics.complexity
  obtain ⟨v, hissues, hv⟩ := Severity.Weights.exists_penalty hp.severities f.issues
  refine ⟨hcomplexity, hduplication, hsize, ?_⟩
  -- Health is composed of what the four cases above leave, and is lost with any one of them.
  split_ifs with hlost
  · apply isNaN_composeHealth
    unfold losesHealth losesScore at hlost
    rw [Bool.or_eq_true, Bool.or_eq_true, Bool.or_eq_true] at hlost
    rcases hlost with ((h₁ | h₂) | h₃) | h₄
    · exact .inl (by rwa [if_pos h₁] at hcomplexity)
    · exact .inr (.inl (by rwa [if_pos h₂] at hduplication))
    · exact .inr (.inr (.inl (by rwa [if_pos h₃] at hsize)))
    · exact .inr (.inr (.inr (by rwa [if_pos h₄] at hescalation)))
  · unfold losesHealth losesScore at hlost
    rw [Bool.or_eq_true, Bool.or_eq_true, Bool.or_eq_true, not_or, not_or, not_or] at hlost
    rcases hlost with ⟨⟨⟨h₁, h₂⟩, h₃⟩, h₄⟩
    rw [if_neg h₁] at hcomplexity
    rw [if_neg h₂] at hduplication
    rw [if_neg h₃] at hsize
    rw [if_neg h₄] at hescalation
    rcases hescalation with ⟨u, hu, hdenotes⟩
    have hpenalty : 0 ≤ toWhole u := by
      rw [← toWhole_zero]
      exact toWhole_mono hu
    exact isScore_composeHealth hcomplexity hduplication hsize hdenotes hpenalty hissues hv

/-- An accepted file is always scored under an accepted profile. Its sub-scores are whole and its
health is on the scale, apart from those that `Curve.loses` or `Escalation.loses` names, which are
no numbers. -/
theorem scoreFile_spec {power : Power} (h : power.NonNegative) {p : Profile} {f : SourceFile}
    (hp : p.validate = .ok ()) (hf : f.validate = .ok ()) :
    ∃ score, p.scoreFile power f = .ok score ∧
      (if p.curves.complexity.loses power f.metrics.complexity.toFloat then
          score.complexity.isNaN = true
        else IsWholeScore score.complexity) ∧
      (if (p.curves.duplication p.mode).loses power f.metrics.duplication then
          score.duplication.isNaN = true
        else IsWholeScore score.duplication) ∧
      (if p.curves.size.loses power f.metrics.lines.toFloat then score.size.isNaN = true
        else IsWholeScore score.size) ∧
      (if p.losesHealth power f then score.health.isNaN = true else IsScore score.health) := by
  rw [Profile.validate_eq_ok_iff] at hp
  rw [SourceFile.validate_eq_ok_iff] at hf
  exact ⟨p.measure power f, Profile.scoreFile_eq_ok_iff.mpr ⟨hp, hf, rfl⟩, hp.measure_spec h hf⟩

/-- The last power of the complexity curve overflows right past the last breakpoint, and the last
rise is flat. -/
def flatOverflow : Profile :=
  { standard with
    curves := { standard.curves with
      complexity := { Curve.complexity with
        exponentialSpan := 1e-200, exponentialExponent := 2.0, exponentialScale := 0.0 } } }

theorem accepted_flatOverflow : flatOverflow.Accepted := by
  refine ⟨?_, rfl, ?_, rfl, rfl, rfl, rfl⟩
  · decide +kernel
  · intro mode
    cases mode <;> rfl

def complexFile : SourceFile := ⟨"a", ⟨60, 0, 0.0, 0⟩, [], default⟩

theorem scoreFile_spec_flatOverflow :
    Power.square.NonNegative ∧ flatOverflow.validate = .ok () ∧ complexFile.validate = .ok () ∧
      ∃ score, flatOverflow.scoreFile Power.square complexFile = .ok score ∧
        IsWholeScore score.size ∧ score.complexity.isNaN = true ∧ score.health.isNaN = true := by
  have hpower := Power.monotone_square.nonNegative
  have hp : flatOverflow.validate = .ok () :=
    (validate_eq_ok_iff _).mpr accepted_flatOverflow
  have hf : complexFile.validate = .ok () := rfl
  have hcomplexity : flatOverflow.curves.complexity.loses Power.square
      complexFile.metrics.complexity.toFloat = true := by decide +kernel
  have hsize : ¬ flatOverflow.curves.size.loses Power.square
      complexFile.metrics.lines.toFloat = true := by decide
  have hhealth : flatOverflow.losesHealth Power.square complexFile = true := by decide +kernel
  obtain ⟨score, hscore, hscores⟩ := scoreFile_spec hpower hp hf
  rw [if_pos hcomplexity, if_neg hsize, if_pos hhealth] at hscores
  exact ⟨hpower, hp, hf, score, hscore, hscores.2.2.1, hscores.1, hscores.2.2.2⟩

/-- Being accepted alone does not keep the scores of a file on the scale. -/
theorem exists_accepted_isNaN_score :
    ¬ ∀ (power : Power) (p : Profile) (f : SourceFile), power.NonNegative → p.validate = .ok () →
      f.validate = .ok () → ∃ score, p.scoreFile power f = .ok score ∧
        IsWholeScore score.complexity ∧ IsWholeScore score.duplication ∧
        IsWholeScore score.size ∧ IsScore score.health := by
  intro h
  obtain ⟨score, hscore, hcomplexity, -⟩ := h Power.square flatOverflow complexFile
    Power.monotone_square.nonNegative ((validate_eq_ok_iff _).mpr accepted_flatOverflow) rfl
  obtain ⟨-, -, rfl⟩ := Profile.scoreFile_eq_ok_iff.mp hscore
  obtain ⟨n, -, hn⟩ := isWholeScore_iff.mp hcomplexity
  have hnan : (flatOverflow.measure Power.square complexFile).complexity.isNaN = true := by
    decide +kernel
  rw [hn.isNaN_eq_false] at hnan
  exact Bool.noConfusion hnan

end Profile

end CodeQuality
