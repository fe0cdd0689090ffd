import CodeQuality.Proofs.Double.Whole

/-!
The error of rounding.

A rounding changes a number by at most half of the distance between doubles. Where doubles have
all their digits this is a factor close to one, so products and quotients of roundings stay within
as many such factors as there were roundings. Below that it is an error of a fixed size.
-/

namespace CodeQuality.Double

/-- The relative error of a rounding to 53 digits. -/
noncomputable def unitRoundoff : ℝ := 2 ^ (-53 : ℤ)

/-- The error of a rounding where doubles have the least distance: half of this distance. -/
noncomputable def underflowError : ℝ := 2 ^ (-1075 : ℤ)

theorem unitRoundoff_pos : 0 < unitRoundoff := two_zpow_pos _

theorem underflowError_pos : 0 < underflowError := two_zpow_pos _

theorem unitRoundoff_eq : unitRoundoff = 1 / 9007199254740992 := by
  unfold unitRoundoff
  norm_num

theorem abs_nearestEven_sub_le {q : ℝ} (hq : 0 ≤ q) : |(nearestEven q : ℝ) - q| ≤ 1 / 2 := by
  have hfloor := Nat.floor_le hq
  have hceil := Nat.lt_floor_add_one q
  have hparity : ⌊q⌋₊ % 2 < 2 := Nat.mod_lt _ (by decide)
  unfold nearestEven
  rw [abs_le]
  split_ifs with hlow hhalf
  · constructor <;> linarith
  · push_cast
    have hup : ((⌊q⌋₊ % 2 : ℕ) : ℝ) ≤ 1 := by exact_mod_cast Nat.le_of_lt_succ hparity
    have hdown : (0 : ℝ) ≤ ((⌊q⌋₊ % 2 : ℕ) : ℝ) := Nat.cast_nonneg _
    constructor <;> linarith
  · push_cast
    constructor <;> linarith [not_lt.mp hlow]

theorem abs_roundMagnitude_sub_le_spacing {x : ℝ} (hx : 0 ≤ x) :
    |roundMagnitude x - x| ≤ 2 ^ (spacing x - 1) := by
  have hunit := two_zpow_pos (spacing x)
  have hdiv : x = x / 2 ^ spacing x * 2 ^ spacing x := (div_mul_cancel₀ x hunit.ne').symm
  have herror := abs_nearestEven_sub_le (div_nonneg hx hunit.le)
  calc |roundMagnitude x - x|
      = |(nearestEven (x / 2 ^ spacing x) - x / 2 ^ spacing x) * 2 ^ spacing x| := by
        rw [sub_mul, ← hdiv]
        rfl
    _ = |(nearestEven (x / 2 ^ spacing x) : ℝ) - x / 2 ^ spacing x| * 2 ^ spacing x := by
        rw [abs_mul, abs_of_pos hunit]
    _ ≤ 1 / 2 * 2 ^ spacing x := mul_le_mul_of_nonneg_right herror hunit.le
    _ = 2 ^ (spacing x - 1) := by
        rw [zpow_sub₀ (by norm_num), zpow_one]
        ring

theorem abs_roundMagnitude_sub_le {x : ℝ} (hx : 0 ≤ x) :
    |roundMagnitude x - x| ≤ unitRoundoff * x + underflowError := by
  rcases hx.eq_or_lt with rfl | hpos
  · rw [roundMagnitude_zero, sub_zero, abs_zero, mul_zero, zero_add]
    exact underflowError_pos.le
  have herror := abs_roundMagnitude_sub_le_spacing hx
  have hlog := two_zpow_log_le hpos
  rcases le_total (-1074) (Int.log 2 x - 52) with hnormal | hleast
  · have hspacing : (2 : ℝ) ^ (spacing x - 1) = unitRoundoff * 2 ^ Int.log 2 x := by
      unfold spacing unitRoundoff
      rw [max_eq_left hnormal, ← zpow_add₀ (by norm_num)]
      congr 1
      omega
    rw [hspacing] at herror
    linarith [mul_le_mul_of_nonneg_left hlog unitRoundoff_pos.le, underflowError_pos]
  · have hspacing : (2 : ℝ) ^ (spacing x - 1) = underflowError := by
      unfold spacing underflowError
      rw [max_eq_right hleast]
      norm_num
    rw [hspacing] at herror
    linarith [mul_nonneg unitRoundoff_pos.le hx]

/-- Where doubles have all their digits the error is a relative one. -/
theorem abs_roundMagnitude_sub_le_mul {x : ℝ} (hx : 2 ^ (-1022 : ℤ) ≤ x) :
    |roundMagnitude x - x| ≤ unitRoundoff * x := by
  have hpos : 0 < x := (two_zpow_pos _).trans_le hx
  have herror := abs_roundMagnitude_sub_le_spacing hpos.le
  have hlog : -1022 ≤ Int.log 2 x := by
    have hmono := Int.log_mono_right (b := 2) (two_zpow_pos (-1022)) hx
    have hzpow : Int.log 2 ((2 : ℝ) ^ (-1022 : ℤ)) = -1022 := by
      exact_mod_cast Int.log_zpow (R := ℝ) (b := 2) (by norm_num) (-1022)
    omega
  have hspacing : (2 : ℝ) ^ (spacing x - 1) = unitRoundoff * 2 ^ Int.log 2 x := by
    unfold spacing unitRoundoff
    rw [max_eq_left (by omega), ← zpow_add₀ (by norm_num)]
    congr 1
    omega
  rw [hspacing] at herror
  exact herror.trans (mul_le_mul_of_nonneg_left (two_zpow_log_le hpos) unitRoundoff_pos.le)

/-! ## Numbers within some factors of rounding -/

/-- The greatest factor between a number and its rounding. -/
noncomputable def roundoffFactor : ℝ := 1 / (1 - unitRoundoff)

theorem roundoffFactor_eq : roundoffFactor = 9007199254740992 / 9007199254740991 := by
  unfold roundoffFactor
  rw [unitRoundoff_eq]
  norm_num

theorem one_le_roundoffFactor : 1 ≤ roundoffFactor := by
  rw [roundoffFactor_eq]
  norm_num

theorem roundoffFactor_pos : 0 < roundoffFactor := one_pos.trans_le one_le_roundoffFactor

/-- Numbers that differ by as much as some roundings may change. -/
structure Near (count : ℕ) (a b : ℝ) : Prop where
  le : a ≤ b * roundoffFactor ^ count
  ge : b ≤ a * roundoffFactor ^ count

namespace Near

variable {j k : ℕ} {a b c d : ℝ}

theorem refl (a : ℝ) : Near 0 a a := ⟨by rw [pow_zero, mul_one], by rw [pow_zero, mul_one]⟩

theorem mono (h : Near j a b) (hjk : j ≤ k) (ha : 0 ≤ a) (hb : 0 ≤ b) : Near k a b := by
  have hpow : roundoffFactor ^ j ≤ roundoffFactor ^ k :=
    pow_le_pow_right₀ one_le_roundoffFactor hjk
  exact ⟨h.le.trans (mul_le_mul_of_nonneg_left hpow hb),
    h.ge.trans (mul_le_mul_of_nonneg_left hpow ha)⟩

theorem add_right (h : Near k a b) (hc : 0 ≤ c) : Near k (a + c) (b + c) := by
  have hpow : 1 ≤ roundoffFactor ^ k := one_le_pow₀ one_le_roundoffFactor
  have hself : c ≤ c * roundoffFactor ^ k := le_mul_of_one_le_right hc hpow
  constructor
  · rw [add_mul]
    exact add_le_add h.le hself
  · rw [add_mul]
    exact add_le_add h.ge hself

theorem pos (h : Near k a b) (hb : 0 < b) : 0 < a := by
  have hlt : 0 < a * roundoffFactor ^ k := hb.trans_le h.ge
  exact (pos_iff_pos_of_mul_pos hlt).mpr (pow_pos roundoffFactor_pos k)

theorem trans (h : Near j a b) (h' : Near k b c) : Near (j + k) a c := by
  have hj : 0 ≤ roundoffFactor ^ j := (pow_pos roundoffFactor_pos j).le
  have hk : 0 ≤ roundoffFactor ^ k := (pow_pos roundoffFactor_pos k).le
  constructor
  · calc a ≤ b * roundoffFactor ^ j := h.le
      _ ≤ c * roundoffFactor ^ k * roundoffFactor ^ j := mul_le_mul_of_nonneg_right h'.le hj
      _ = c * roundoffFactor ^ (j + k) := by ring
  · calc c ≤ b * roundoffFactor ^ k := h'.ge
      _ ≤ a * roundoffFactor ^ j * roundoffFactor ^ k := mul_le_mul_of_nonneg_right h.ge hk
      _ = a * roundoffFactor ^ (j + k) := by ring

protected theorem mul (h : Near j a b) (h' : Near k c d) (hb : 0 < b) (hd : 0 < d) :
    Near (j + k) (a * c) (b * d) := by
  have ha := h.pos hb
  have hc := h'.pos hd
  constructor
  · calc a * c ≤ b * roundoffFactor ^ j * (d * roundoffFactor ^ k) :=
          mul_le_mul h.le h'.le hc.le (ha.le.trans h.le)
      _ = b * d * roundoffFactor ^ (j + k) := by ring
  · calc b * d ≤ a * roundoffFactor ^ j * (c * roundoffFactor ^ k) :=
          mul_le_mul h.ge h'.ge hd.le (hb.le.trans h.ge)
      _ = a * c * roundoffFactor ^ (j + k) := by ring

protected theorem inv (h : Near k a b) (hb : 0 < b) : Near k a⁻¹ b⁻¹ := by
  have ha := h.pos hb
  constructor
  · rw [inv_mul_eq_div, inv_eq_one_div, div_le_div_iff₀ ha hb, one_mul, mul_comm]
    exact h.ge
  · rw [inv_mul_eq_div, inv_eq_one_div, div_le_div_iff₀ hb ha, one_mul, mul_comm]
    exact h.le

protected theorem div (h : Near j a b) (h' : Near k c d) (hb : 0 < b) (hd : 0 < d) :
    Near (j + k) (a / c) (b / d) := by
  rw [div_eq_mul_inv, div_eq_mul_inv]
  exact h.mul (h'.inv hd) hb (inv_pos.mpr hd)

theorem abs_sub_le (h : Near k a b) (hb : 0 < b) : |a - b| ≤ (roundoffFactor ^ k - 1) * b := by
  have hk : 1 ≤ roundoffFactor ^ k := one_le_pow₀ one_le_roundoffFactor
  rw [abs_le]
  constructor
  · rcases le_total a b with hab | hab
    · have hle := mul_le_mul_of_nonneg_left hab (sub_nonneg.mpr hk)
      linarith [h.ge]
    · linarith [mul_nonneg (sub_nonneg.mpr hk) hb.le]
  · linarith [h.le]

end Near

/-- A relative error is at most as many factors as cover it in both directions. -/
theorem near_of_abs_sub_le {count : ℕ} {a b relative : ℝ} (h : |a - b| ≤ relative * b) (hb : 0 ≤ b)
    (hup : 1 + relative ≤ roundoffFactor ^ count)
    (hdown : 1 ≤ (1 - relative) * roundoffFactor ^ count) : Near count a b := by
  have hcount := pow_pos roundoffFactor_pos count
  have hbounds := abs_le.mp h
  constructor
  · calc a ≤ b * (1 + relative) := by linarith
      _ ≤ b * roundoffFactor ^ count := mul_le_mul_of_nonneg_left hup hb
  · calc b = b * 1 := (mul_one b).symm
      _ ≤ b * ((1 - relative) * roundoffFactor ^ count) := mul_le_mul_of_nonneg_left hdown hb
      _ = b * (1 - relative) * roundoffFactor ^ count := by ring
      _ ≤ a * roundoffFactor ^ count := mul_le_mul_of_nonneg_right (by linarith) hcount.le

theorem near_roundMagnitude {x : ℝ} (hx : 2 ^ (-1022 : ℤ) ≤ x) : Near 1 (roundMagnitude x) x := by
  refine near_of_abs_sub_le (abs_roundMagnitude_sub_le_mul hx) ((two_zpow_pos _).le.trans hx) ?_ ?_
  · rw [roundoffFactor_eq, unitRoundoff_eq]
    norm_num
  · rw [roundoffFactor_eq, unitRoundoff_eq]
    norm_num

/-- Two digits may be missing at the lower end of the range, which costs a few factors more. -/
theorem near_roundMagnitude_of_le {x : ℝ} (hx : 2 ^ (-1024 : ℤ) ≤ x) :
    Near 6 (roundMagnitude x) x := by
  have hpos : 0 ≤ x := (two_zpow_pos _).le.trans hx
  have hunderflow : underflowError ≤ 4 * unitRoundoff * x := by
    have hsplit : underflowError = 4 * unitRoundoff * 2 ^ (-1024 : ℤ) := by
      unfold underflowError unitRoundoff
      rw [show (4 : ℝ) = 2 ^ (2 : ℤ) by norm_num, ← zpow_add₀ (by norm_num),
        ← zpow_add₀ (by norm_num)]
      norm_num
    rw [hsplit]
    exact mul_le_mul_of_nonneg_left hx (by linarith [unitRoundoff_pos])
  have herror : |roundMagnitude x - x| ≤ 5 * unitRoundoff * x := by
    linarith [abs_roundMagnitude_sub_le hpos]
  refine near_of_abs_sub_le herror hpos ?_ ?_
  · rw [roundoffFactor_eq, unitRoundoff_eq]
    norm_num
  · rw [roundoffFactor_eq, unitRoundoff_eq]
    norm_num

end CodeQuality.Double
