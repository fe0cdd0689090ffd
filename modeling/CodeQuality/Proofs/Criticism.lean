import CodeQuality.Proofs.Double.Absorption
import CodeQuality.Proofs.Double.Bits
import CodeQuality.Proofs.HealthOrder
import CodeQuality.Proofs.OverallScores

/-!
The criticism score under accepted weights.

Every part of the score is a number from zero on, and the impact of a file is finite however many
neighbours the file has. So the score is a number at least as great as the base, infinity included,
and each part of it rises with what it counts.
-/

namespace CodeQuality

open Double

/-- Nothing that criticism counts is less for `m'` and `c'` than for `m` and `c`. -/
structure Riskier (m : Metrics) (c : Coupling) (m' : Metrics) (c' : Coupling) : Prop where
  complexity : m.complexity ≤ m'.complexity
  lines : m.lines ≤ m'.lines
  -- What is no number has no order, but may stay as it is.
  duplication : m.duplication ≤ m'.duplication ∨ m'.duplication = m.duplication
  incoming : c.incoming ≤ c'.incoming
  outgoing : c.outgoing ≤ c'.outgoing
  inCycle : c.inCycle = true → c'.inCycle = true

/-! ## Sums and products from zero on -/

theorem nonneg_toFloat (n : UInt32) : 0.0 ≤ n.toFloat :=
  nonneg_of_denotes (denotes_toFloat_uint32 n) (EReal.coe_nonneg.mpr (Nat.cast_nonneg _))

theorem nonneg_add {x y : Float} (hx : 0.0 ≤ x) (hy : 0.0 ≤ y) : 0.0 ≤ x + y :=
  le_trans hx (le_add hx hy)

theorem nonneg_mul {x y : Float} {a b : ℝ} (hx : Denotes x a) (ha : 0 ≤ a) (hy : Denotes y b)
    (hb : 0 ≤ b) : 0.0 ≤ x * y := by
  obtain ⟨v, hv, hv₀⟩ := exists_product ⟨a, hx, ha⟩ ⟨b, hy, hb⟩
  exact nonneg_of_denotes hv hv₀

namespace Criticism.Weights

variable {w : Criticism.Weights}

/-! ## Weights -/

theorem exists_plainWeight (h : w.fault? = none) {name : String} {x : Float}
    (hentry : (name, x) ∈ w.plainWeights) : ∃ a : ℝ, Denotes x a ∧ 0 ≤ a := by
  unfold fault? at h
  split at h
  · cases h
  · next hfind =>
    rw [List.find?_eq_none] at hfind
    exact exists_of_isNonNegative (by simpa using hfind (name, x) hentry)

theorem exists_cycleImpact (h : w.fault? = none) : ∃ a : ℝ, Denotes w.cycleImpact a ∧ 0 ≤ a :=
  exists_plainWeight h
    (show ("cycle_impact", w.cycleImpact) ∈ w.plainWeights by simp [plainWeights])

theorem base_pos (h : w.fault? = none) : 0.0 < w.base := by
  unfold fault? at h
  split at h
  · cases h
  · split_ifs at h with hbase hthreshold
    rw [Bool.or_eq_true, not_or, Bool.not_eq_true', Bool.not_eq_false, decide_eq_true_eq] at hbase
    obtain ⟨a, ha⟩ := exists_denotes_of_isFinite hbase.1
    have hpos := hbase.2
    rw [ha.le_iff denotes_zero, not_le] at hpos
    exact (denotes_zero.lt_iff ha).mpr hpos

theorem base_nonneg (h : w.fault? = none) : 0.0 ≤ w.base :=
  Double.le_of_lt (base_pos h)

/-! ## Impact -/

theorem denotes_neighbours (c : Coupling) : Denotes (c.incoming.toFloat + c.outgoing.toFloat)
    ((c.incoming.toNat + c.outgoing.toNat : ℕ) : ℝ) := by
  have hincoming := c.incoming.toNat_lt
  have houtgoing := c.outgoing.toNat_lt
  have hsum := (denotes_toFloat_uint32 c.incoming).add (denotes_toFloat_uint32 c.outgoing)
    (not_cancels_of_coe_left _ _)
  rwa [← EReal.coe_add, ← Nat.cast_add, nearest_natCast (by omega)] at hsum

/-- However many neighbours a file has, its impact is finite. -/
theorem exists_impact (h : w.fault? = none) (c : Coupling) :
    ∃ a : ℝ, Denotes (w.impact c) a ∧ 0 ≤ a := by
  have hcycle : ∃ k : ℝ, Denotes (if c.inCycle then w.cycleImpact else 0.0) k ∧ 0 ≤ k := by
    split_ifs
    · exact exists_cycleImpact h
    · exact ⟨0, denotes_zero, le_rfl⟩
  have hcount : ((c.incoming.toNat + c.outgoing.toNat : ℕ) : ℝ) < greatestAbsorbed := by
    have hincoming := c.incoming.toNat_lt
    have houtgoing := c.outgoing.toNat_lt
    have hnat : c.incoming.toNat + c.outgoing.toNat ≤ 2 ^ 33 := by omega
    calc ((c.incoming.toNat + c.outgoing.toNat : ℕ) : ℝ) ≤ ((2 ^ 33 : ℕ) : ℝ) :=
          Nat.cast_le.mpr hnat
      _ = 2 ^ (33 : ℤ) := by norm_num
      _ < greatestAbsorbed := zpow_lt_zpow_right₀ (by norm_num) (by norm_num)
  obtain ⟨k, hk, hk₀⟩ := hcycle
  exact exists_add_of_lt (denotes_neighbours c) (Nat.cast_nonneg _) hcount hk hk₀

theorem nonneg_cycle (h : w.fault? = none) (c : Coupling) :
    0.0 ≤ (if c.inCycle then w.cycleImpact else 0.0) := by
  obtain ⟨k, hk, hk₀⟩ := exists_cycleImpact h
  split_ifs
  · exact nonneg_of_denotes hk (EReal.coe_nonneg.mpr hk₀)
  · exact le_self denotes_zero.isNaN_eq_false

theorem cycle_mono (h : w.fault? = none) {c c' : Coupling}
    (hcycle : c.inCycle = true → c'.inCycle = true) :
    (if c.inCycle then w.cycleImpact else 0.0) ≤ if c'.inCycle then w.cycleImpact else 0.0 := by
  by_cases hin : c.inCycle = true
  · rw [if_pos hin, if_pos (hcycle hin)]
    obtain ⟨k, hk, -⟩ := exists_cycleImpact h
    exact le_self hk.isNaN_eq_false
  · rw [if_neg hin]
    exact nonneg_cycle h c'

theorem impact_mono (h : w.fault? = none) {c c' : Coupling} (hincoming : c.incoming ≤ c'.incoming)
    (houtgoing : c.outgoing ≤ c'.outgoing) (hcycle : c.inCycle = true → c'.inCycle = true) :
    w.impact c ≤ w.impact c' := by
  have hneighbours : c.incoming.toFloat + c.outgoing.toFloat ≤
      c'.incoming.toFloat + c'.outgoing.toFloat :=
    add_mono (nonneg_toFloat _) (nonneg_toFloat _) (toFloat_mono hincoming) (toFloat_mono houtgoing)
  exact add_mono (nonneg_add (nonneg_toFloat _) (nonneg_toFloat _)) (nonneg_cycle h c) hneighbours
    (cycle_mono h hcycle)

/-! ## Thresholds -/

theorem toNat_flags (w : Criticism.Weights) (m : Metrics) : (w.flags m).toNat =
    (if w.complexityThreshold < m.complexity then 1 else 0)
      + (if w.duplicationThreshold < m.duplication then 1 else 0)
      + (if w.sizeThreshold < m.lines then 1 else 0) := by
  unfold flags
  split_ifs <;> rfl

theorem one_or_zero_le {p q : Prop} [Decidable p] [Decidable q] (h : p → q) :
    (if p then 1 else 0) ≤ if q then 1 else 0 := by
  split_ifs with hp hq
  · exact le_rfl
  · exact absurd (h hp) hq
  · exact Nat.zero_le 1
  · exact le_rfl

theorem flags_mono (w : Criticism.Weights) {m m' : Metrics} {c c' : Coupling}
    (h : Riskier m c m' c') : w.flags m ≤ w.flags m' := by
  have hshare : w.duplicationThreshold < m.duplication →
      w.duplicationThreshold < m'.duplication := by
    intro hlt
    rcases h.duplication with hle | heq
    · exact Double.lt_of_lt_of_le hlt hle
    · rwa [heq]
  rw [UInt32.le_iff_toNat_le, toNat_flags, toNat_flags]
  exact Nat.add_le_add (Nat.add_le_add
    (one_or_zero_le fun hlt => UInt32.lt_of_lt_of_le hlt h.complexity) (one_or_zero_le hshare))
    (one_or_zero_le fun hlt => UInt32.lt_of_lt_of_le hlt h.lines)

/-! ## The score -/

/-- The numbers behind the weights of the three products. -/
theorem exists_products (h : w.fault? = none) :
    ∃ i k j : ℝ, (Denotes w.impactWeight i ∧ 0 ≤ i) ∧ (Denotes w.complexityWeight k ∧ 0 ≤ k) ∧
      Denotes w.issueWeight j ∧ 0 ≤ j := by
  obtain ⟨i, hi⟩ := exists_plainWeight h
    (show ("impact_weight", w.impactWeight) ∈ w.plainWeights by simp [plainWeights])
  obtain ⟨k, hk⟩ := exists_plainWeight h
    (show ("complexity_weight", w.complexityWeight) ∈ w.plainWeights by simp [plainWeights])
  obtain ⟨j, hj⟩ := exists_plainWeight h
    (show ("issue_weight", w.issueWeight) ∈ w.plainWeights by simp [plainWeights])
  exact ⟨i, k, j, hi, hk, hj⟩

theorem nonneg_toFloat_mul {x : Float} {b : ℝ} (n : UInt32) (hx : Denotes x b) (hb : 0 ≤ b) :
    0.0 ≤ n.toFloat * x :=
  nonneg_mul (denotes_toFloat_uint32 n) (Nat.cast_nonneg _) hx hb

theorem toFloat_mul_le {x : Float} {b : ℝ} {m n : UInt32} (h : m ≤ n)
    (hx : Denotes x b) (hb : 0 ≤ b) : m.toFloat * x ≤ n.toFloat * x :=
  mul_mono (denotes_toFloat_uint32 m) (denotes_toFloat_uint32 n) hx hb
    (Nat.cast_le.mpr (UInt32.le_iff_toNat_le.mp h))

/-- What a score adds to the base. -/
def products (w : Criticism.Weights) (m : Metrics) (c : Coupling) : Float :=
  w.impact c * w.impactWeight + m.complexity.toFloat * w.complexityWeight
    + (w.flags m).toFloat * w.issueWeight

theorem products_nonneg (h : w.fault? = none) (m : Metrics) (c : Coupling) :
    0.0 ≤ w.products m c := by
  obtain ⟨i, k, j, ⟨hi, hi₀⟩, ⟨hk, hk₀⟩, hj, hj₀⟩ := exists_products h
  obtain ⟨a, ha, ha₀⟩ := exists_impact h c
  exact nonneg_add (nonneg_add (nonneg_mul ha ha₀ hi hi₀) (nonneg_toFloat_mul _ hk hk₀))
    (nonneg_toFloat_mul _ hj hj₀)

theorem base_le_score (h : w.fault? = none) (m : Metrics) (c : Coupling) :
    w.base ≤ w.score m c :=
  le_add_left (products_nonneg h m c) (base_nonneg h)

theorem score_nonneg (h : w.fault? = none) (m : Metrics) (c : Coupling) : 0.0 ≤ w.score m c :=
  le_trans (base_nonneg h) (base_le_score h m c)

/-- A riskier file is criticised no less. -/
theorem score_mono (h : w.fault? = none) {m m' : Metrics} {c c' : Coupling}
    (hrisk : Riskier m c m' c') : w.score m c ≤ w.score m' c' := by
  obtain ⟨i, k, j, ⟨hi, hi₀⟩, ⟨hk, hk₀⟩, hj, hj₀⟩ := exists_products h
  obtain ⟨a, ha, ha₀⟩ := exists_impact h c
  obtain ⟨b, hb, -⟩ := exists_impact h c'
  have hbase := base_nonneg h
  have hwider := impact_mono h hrisk.incoming hrisk.outgoing hrisk.inCycle
  -- Each of the three products is no less for the riskier file.
  have himpact := mul_mono ha hb hi hi₀ ((ha.coe_le_iff hb).mp hwider)
  have hcomplexity := toFloat_mul_le hrisk.complexity hk hk₀
  have hflags := toFloat_mul_le (flags_mono w hrisk) hj hj₀
  have hfirst := nonneg_mul ha ha₀ hi hi₀
  have hsecond := nonneg_toFloat_mul m.complexity hk hk₀
  have hthird := nonneg_toFloat_mul (w.flags m) hj hj₀
  have htwo := add_mono hfirst hsecond himpact hcomplexity
  have hthree := add_mono (nonneg_add hfirst hsecond) hthird htwo hflags
  exact add_mono (products_nonneg h m c) hbase hthree (le_self (isNaN_eq_false_of_le hbase).2)

end Criticism.Weights

theorem Profile.toFloat_criticism_measure (power : Power) (p : Profile) (f : SourceFile) :
    (p.measure power f).criticism.toFloat = p.criticism.score f.metrics f.coupling :=
  DoubleBits.toFloat_ofFloat _

end CodeQuality
