import CodeQuality.Proofs.Criticism
import CodeQuality.Proofs.Double.Sums

/-!
The criticism score under the standard weights.

Every weight is a multiple of one half and every count has 32 bits, so each step of the score stays
within the multiples of one half that are doubles. The score is the exact rational number.
-/

namespace CodeQuality

open Double

/-! ## Halves -/

namespace Double

/-- A double that is `n` halves. -/
def IsHalves (x : Float) (n : ℕ) : Prop := Denotes x ((n / 2 : ℝ) : EReal)

variable {x y : Float} {k m n : ℕ}

theorem nearest_halves (hn : n ≤ 2 ^ 53) :
    nearest ((n / 2 : ℝ) : EReal) = ((n / 2 : ℝ) : EReal) := by
  have hunits : (n / 2 : ℝ) = n * 2 ^ (-1 : ℤ) := by rw [zpow_neg_one, div_eq_mul_inv]
  have hlimit : |(n : ℝ) * 2 ^ (-1 : ℤ)| < limit := by
    have hn' : (n : ℝ) ≤ 2 ^ 53 := by exact_mod_cast hn
    rw [abs_of_nonneg (mul_nonneg (Nat.cast_nonneg n) (two_zpow_pos _).le), ← hunits]
    calc (n / 2 : ℝ) ≤ n := by linarith [Nat.cast_nonneg (α := ℝ) n]
      _ ≤ 2 ^ (53 : ℤ) := hn'
      _ < limit := zpow_lt_zpow_right₀ (by norm_num) (by norm_num)
  rw [hunits, nearest_units hn (by norm_num), overflow_of_abs_lt hlimit]

theorem isHalves_of_denotes (hx : Denotes x (n : ℝ)) : IsHalves x (2 * n) := by
  have hself : ((2 * n : ℕ) / 2 : ℝ) = n := by
    push_cast
    ring
  unfold IsHalves
  rwa [hself]

theorem IsHalves.add (hx : IsHalves x m) (hy : IsHalves y n) (h : m + n ≤ 2 ^ 53) :
    IsHalves (x + y) (m + n) := by
  have hsum := Denotes.add hx hy (not_cancels_of_coe_left _ _)
  rwa [← EReal.coe_add, ← add_div, ← Nat.cast_add, nearest_halves h] at hsum

theorem IsHalves.natCast_mul (hx : Denotes x (k : ℝ)) (hy : IsHalves y n) (h : k * n ≤ 2 ^ 53) :
    IsHalves (x * y) (k * n) := by
  have hproduct := hx.mul hy (not_annihilates_of_nonneg (EReal.coe_nonneg.mpr (Nat.cast_nonneg k))
    fun htop => EReal.coe_ne_top _ htop.1)
  rwa [← EReal.coe_mul, ← mul_div_assoc, ← Nat.cast_mul, nearest_halves h] at hproduct

theorem isHalves_half : IsHalves 0.5 1 := by
  have hparts : Binary64.ofFloat? 0.5 = some ⟨false, 2 ^ 52, -53⟩ := by decide
  have hvalue : Binary64.value ⟨false, 2 ^ 52, -53⟩ = ((2 ^ 52 : ℕ) : ℝ) * 2 ^ (-53 : ℤ) := rfl
  have hhalf : ((1 : ℕ) / 2 : ℝ) = ((2 ^ 52 : ℕ) : ℝ) * 2 ^ (-53 : ℤ) := by norm_num
  unfold IsHalves
  rw [hhalf, ← hvalue]
  exact Binary64.denotes_of_ofFloat? hparts

end Double

namespace Criticism.Weights

/-- The number of standard thresholds that a file exceeds. -/
def exceeded (m : Metrics) : ℕ :=
  (if 10 < m.complexity.toNat then 1 else 0) + (if 0.10 < m.duplication then 1 else 0)
    + (if 500 < m.lines.toNat then 1 else 0)

/-- The number of neighbours, a cycle counting as five. -/
def neighbours (c : Coupling) : ℕ :=
  c.incoming.toNat + c.outgoing.toNat + if c.inCycle then 5 else 0

/-- The score under the standard weights in rational arithmetic. -/
def exactScore (m : Metrics) (c : Coupling) : ℚ :=
  2 * neighbours c + m.complexity.toNat + exceeded m / 2 + 1

theorem exceeded_le (m : Metrics) : exceeded m ≤ 3 := by
  unfold exceeded
  split_ifs <;> omega

theorem neighbours_lt (c : Coupling) : neighbours c < 2 ^ 34 := by
  have hincoming := c.incoming.toNat_lt
  have houtgoing := c.outgoing.toNat_lt
  unfold neighbours
  split_ifs <;> omega

theorem toNat_flags_standard (m : Metrics) : (standard.flags m).toNat = exceeded m := by
  rw [toNat_flags]
  rfl

/-- A cycle weighs as much as five neighbours. -/
theorem exactScore_inCycle (m : Metrics) (c : Coupling) :
    exactScore m { c with inCycle := true } = exactScore m { c with inCycle := false } + 10 := by
  simp only [exactScore, neighbours, if_true, Bool.false_eq_true, if_false]
  push_cast
  ring

theorem denotes_impact_standard (c : Coupling) :
    Denotes (standard.impact c) (neighbours c : ℝ) := by
  have hcycle : Denotes (if c.inCycle then standard.cycleImpact else 0.0)
      ((if c.inCycle then 5 else 0 : ℕ) : ℝ) := by
    split_ifs
    · exact denotes_wholeFloat (n := 5) (by norm_num)
    · exact_mod_cast denotes_zero
  have hbound := neighbours_lt c
  have hsum := (denotes_neighbours c).add hcycle (not_cancels_of_coe_left _ _)
  rwa [← EReal.coe_add, ← Nat.cast_add, ← neighbours, nearest_natCast (by omega)] at hsum

/-- No step of the score leaves the halves below `2 ^ 37`, so none is rounded. -/
theorem isHalves_score_standard (m : Metrics) (c : Coupling) :
    IsHalves (standard.score m c)
      (neighbours c * 4 + m.complexity.toNat * 2 + exceeded m * 1 + 2) := by
  have hneighbours := neighbours_lt c
  have hcomplexity := m.complexity.toNat_lt
  have hexceeded := exceeded_le m
  have htwo : IsHalves 2.0 4 := isHalves_of_denotes (denotes_wholeFloat (n := 2) (by norm_num))
  have hone : IsHalves 1.0 2 := isHalves_of_denotes (denotes_wholeFloat (n := 1) (by norm_num))
  have hflags := denotes_toFloat_uint32 (standard.flags m)
  rw [toNat_flags_standard] at hflags
  have himpact := IsHalves.natCast_mul (denotes_impact_standard c) htwo (by omega)
  have hpaths := IsHalves.natCast_mul (denotes_toFloat_uint32 m.complexity) hone (by omega)
  have hissues := IsHalves.natCast_mul hflags isHalves_half (by omega)
  exact ((himpact.add hpaths (by omega)).add hissues (by omega)).add hone (by omega)

theorem denotes_score_standard (m : Metrics) (c : Coupling) :
    Denotes (standard.score m c) ((exactScore m c : ℝ) : EReal) := by
  have hexact : ((exactScore m c : ℚ) : ℝ) =
      (neighbours c * 4 + m.complexity.toNat * 2 + exceeded m * 1 + 2 : ℕ) / 2 := by
    unfold exactScore
    push_cast
    ring
  rw [hexact]
  exact isHalves_score_standard m c

/-- Under the standard weights the score of every file is the exact rational number. So a cycle adds
ten, and files with the same score have the same rational number. -/
theorem score_standard_exact :
    (∀ (m : Metrics) (c : Coupling),
      Denotes (standard.score m c) ((exactScore m c : ℝ) : EReal)) ∧
    (∀ (m : Metrics) (c : Coupling),
      exactScore m { c with inCycle := true } = exactScore m { c with inCycle := false } + 10 ∧
      standard.score m { c with inCycle := true } - standard.score m { c with inCycle := false } =
        10.0) ∧
    ∀ (m m' : Metrics) (c c' : Coupling),
      (standard.score m c == standard.score m' c') = true ↔ exactScore m c = exactScore m' c' := by
  refine ⟨denotes_score_standard, ?_, ?_⟩
  · intro m c
    refine ⟨exactScore_inCycle m c, ?_⟩
    have hdifference := (denotes_score_standard m { c with inCycle := true }).sub
      (denotes_score_standard m { c with inCycle := false }) (not_cancels_of_coe_left _ _)
    rw [exactScore_inCycle, ← EReal.coe_sub, Rat.cast_add, add_sub_cancel_left] at hdifference
    have hten := denotes_wholeFloat (n := 10) (by norm_num)
    have hexact : ((((10 : ℚ) : ℝ)) : EReal) = (((10 : ℕ) : ℝ) : EReal) := by norm_num
    rw [hexact, nearest_natCast (by norm_num)] at hdifference
    exact eq_of_denotes hdifference hten (by norm_num)
  · intro m m' c c'
    rw [(denotes_score_standard m c).beq_iff (denotes_score_standard m' c'),
      EReal.coe_eq_coe_iff, Rat.cast_inj]

end Criticism.Weights

end CodeQuality
