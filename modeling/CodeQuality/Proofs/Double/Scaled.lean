import CodeQuality.Number.Scaled
import CodeQuality.Proofs.Double.Roundoff

/-!
Decimal numbers as doubles by products and quotients.

The digits and the power of ten are each the nearest double, and the product or the quotient is
rounded again. So a decimal number within the range of doubles becomes a double that is off by a
few roundings.
-/

namespace CodeQuality.Double

open Float.Model (Format UnpackedFloat totalExponent)
open Float.Model.UnpackedFloat

/-! ## Powers of ten -/

/-- The power is multiplied by a one with 53 digits, and the product is rounded. -/
theorem denotes_ofScientific_one {n : ℕ} (h : n ≤ 308) :
    Denotes (.ofModel (Float.Model.ofScientific 1 n)) (nearest ((10 ^ n : ℕ) : ℝ)) := by
  have hpow : 0 < 10 ^ n := Nat.pow_pos (by decide)
  have hprod : 0 < 2 ^ 53 * 10 ^ n := Nat.mul_pos (by decide) hpow
  have hvalue : ((2 ^ 53 * 10 ^ n : ℕ) : ℝ) * 2 ^ (-53 : ℤ) = ((10 ^ n : ℕ) : ℝ) := by
    push_cast
    rw [mul_right_comm]
    norm_num
  have hparts : UnpackedFloat.ofScientific .binary64 1 (n : ℤ) =
      roundWithAccuracy .binary64 .positive (2 ^ 53 * 10 ^ n) (-53) .exact := by
    unfold UnpackedFloat.ofScientific
    rw [dif_neg one_ne_zero, if_neg (show ¬ (n : ℤ) > 2 ^ 11 by omega),
      if_neg (show ¬ (n : ℤ) < -(2 ^ 11 + ((1 : ℕ).log2 : ℤ)) by omega),
      if_pos (Int.natCast_nonneg n)]
    rfl
  apply denotes_of_packsTo
  rw [hparts, ← hvalue]
  have hx := mul_zpow_pos hprod (-53)
  have hlocates : Locates (.ofMantissaAndAccuracy (2 ^ 53 * 10 ^ n) .exact)
      (((2 ^ 53 * 10 ^ n : ℕ) : ℝ) * 2 ^ (-53 : ℤ) / 2 ^ (-53 : ℤ)) := by
    rw [mul_div_cancel_right₀ _ (two_zpow_pos _).ne']
    exact .whole _
  have hexponent : (-53 : ℤ) ≤
      Format.binary64.targetExponent (totalExponent (2 ^ 53 * 10 ^ n) (-53)) := by
    have hlog := (Nat.le_log2 (k := 53) hprod.ne').mpr (Nat.le_mul_of_pos_right _ hpow)
    rw [targetExponent_eq]
    unfold totalExponent
    omega
  have hrounded := packsTo_roundWithAccuracy .positive hx hlocates hexponent
  rw [← nearest_signed .positive hx.le] at hrounded
  exact hrounded

/-- The powers that are looked up in a table are the nearest doubles. -/
theorem floatTenPow_table : ∀ n ≤ 22,
    Float.exactlyRepresentablePowersOfTen[n]? = some (floatTenPow n) ∧
      floatTenPow n = .ofModel (Float.Model.ofScientific 1 n) := by
  decide +kernel

theorem floatTenPow_eq {n : ℕ} (h : n ≤ 308) :
    floatTenPow n = .ofModel (Float.Model.ofScientific 1 n) := by
  by_cases hsmall : n ≤ 22
  · exact (floatTenPow_table n hsmall).2
  · have hplaces : ((Decimal.digitChars 1).length : ℤ) = 1 := rfl
    unfold floatTenPow Decimal.toFloat
    dsimp only
    rw [if_neg one_ne_zero, hplaces, if_neg (show ¬ 310 < 1 + (n : ℤ) by omega),
      if_neg (show ¬ 1 + (n : ℤ) < -330 by omega), if_pos (Int.natCast_nonneg n),
      Int.toNat_natCast]
    unfold Float.ofScientific
    rw [dif_neg (by omega)]
    rfl

theorem denotes_floatTenPow {n : ℕ} (h : n ≤ 308) :
    Denotes (floatTenPow n) (nearest ((10 ^ n : ℕ) : ℝ)) := by
  rw [floatTenPow_eq h]
  exact denotes_ofScientific_one h

/-! ## The parts of a decimal number -/

/-- A rounding of a number that is itself off by some roundings. -/
theorem abs_roundMagnitude_sub_le_of_near {k : ℕ} {x exact : ℝ} (h : Near k x exact) (hk : k ≤ 9)
    (hexact : 0 < exact) :
    |roundMagnitude x - exact| ≤ 12 * unitRoundoff * exact + underflowError := by
  have hpow : roundoffFactor ^ k ≤ roundoffFactor ^ 9 :=
    pow_le_pow_right₀ one_le_roundoffFactor hk
  have hnine : roundoffFactor ^ 9 ≤ 1 + 10 * unitRoundoff := by
    rw [roundoffFactor_eq, unitRoundoff_eq]
    norm_num
  have htwo : roundoffFactor ^ k ≤ 2 := by
    have hten : 1 + 10 * unitRoundoff ≤ 2 := by
      rw [unitRoundoff_eq]
      norm_num
    linarith
  have hdiff : |x - exact| ≤ 10 * unitRoundoff * exact :=
    (h.abs_sub_le hexact).trans (mul_le_mul_of_nonneg_right (by linarith) hexact.le)
  have hround := abs_roundMagnitude_sub_le (h.pos hexact).le
  have hscaled : unitRoundoff * x ≤ 2 * unitRoundoff * exact := by
    have hx : x ≤ 2 * exact := by
      calc x ≤ exact * roundoffFactor ^ k := h.le
        _ ≤ exact * 2 := mul_le_mul_of_nonneg_left htwo hexact.le
        _ = 2 * exact := mul_comm _ _
    calc unitRoundoff * x ≤ unitRoundoff * (2 * exact) :=
          mul_le_mul_of_nonneg_left hx unitRoundoff_pos.le
      _ = 2 * unitRoundoff * exact := by ring
  calc |roundMagnitude x - exact| = |(roundMagnitude x - x) + (x - exact)| := by ring_nf
    _ ≤ |roundMagnitude x - x| + |x - exact| := abs_add_le _ _
    _ ≤ 12 * unitRoundoff * exact + underflowError := by linarith

theorem near_roundMagnitude_of_one_le {x : ℝ} (hx : 1 ≤ x) : Near 1 (roundMagnitude x) x :=
  near_roundMagnitude ((zpow_le_one_of_nonpos₀ (by norm_num) (by norm_num)).trans hx)

/-- From one on up and well below the limit, what a double denotes is near. -/
theorem exists_near_of_denotes_nearest {x : Float} {r : ℝ} (h : Denotes x (nearest r)) (hr : 1 ≤ r)
    (hlimit : r * roundoffFactor < limit) : ∃ a : ℝ, Denotes x a ∧ Near 1 a r := by
  have hnear := near_roundMagnitude_of_one_le hr
  refine ⟨roundMagnitude r, ?_, hnear⟩
  rwa [nearest_of_roundMagnitude_lt (one_pos.le.trans hr)] at h
  have hle := hnear.le
  rw [pow_one] at hle
  exact hle.trans_lt hlimit

theorem exists_near_wholeFloat {n : ℕ} (hn : n ≠ 0) (h : n < 2 ^ 64) :
    ∃ a : ℝ, Denotes (wholeFloat n) a ∧ Near 1 a n := by
  apply exists_near_of_denotes_nearest (denotes_wholeFloat_nearest h)
  · exact_mod_cast Nat.one_le_iff_ne_zero.mpr hn
  · have hbound : (n : ℝ) ≤ 2 ^ 64 := by exact_mod_cast h.le
    have hfactor : roundoffFactor ≤ 2 := by
      rw [roundoffFactor_eq]
      norm_num
    calc (n : ℝ) * roundoffFactor ≤ 2 ^ 64 * 2 :=
          mul_le_mul hbound hfactor roundoffFactor_pos.le (by norm_num)
      _ = 2 ^ (65 : ℤ) := by norm_num
      _ < limit := zpow_lt_zpow_right₀ (by norm_num) (by norm_num)

theorem tenPow_308_mul_lt : (10 : ℝ) ^ 308 * roundoffFactor ^ 2 < limit := by
  have hlt : (10 : ℝ) ^ 308 * 9007199254740992 ^ 2 < 2 ^ 1024 * 9007199254740991 ^ 2 := by
    rw [pow_mul 10 77 4, pow_mul 2 256 4]
    norm_num
  have hlimit : limit = (2 : ℝ) ^ 1024 := zpow_natCast 2 1024
  rw [hlimit, roundoffFactor_eq, div_pow, mul_div_assoc', div_lt_iff₀ (by norm_num)]
  exact hlt

theorem exists_near_floatTenPow {k : ℕ} (h : k ≤ 308) :
    ∃ b : ℝ, Denotes (floatTenPow k) b ∧ Near 1 b (10 ^ k) := by
  have hdenotes := denotes_floatTenPow h
  rw [Nat.cast_pow, Nat.cast_ofNat] at hdenotes
  apply exists_near_of_denotes_nearest hdenotes (one_le_pow₀ (by norm_num))
  have hbound : (10 : ℝ) ^ k ≤ 10 ^ 308 := pow_le_pow_right₀ (by norm_num) h
  calc (10 : ℝ) ^ k * roundoffFactor ≤ 10 ^ 308 * roundoffFactor ^ 2 :=
        mul_le_mul hbound (le_self_pow₀ one_le_roundoffFactor two_ne_zero)
          roundoffFactor_pos.le (by positivity)
    _ < limit := tenPow_308_mul_lt

/-! ## Products and quotients -/

section

variable {x y : Float} {a b : ℝ}

theorem Denotes.mul_of_pos (hx : Denotes x a) (hy : Denotes y b) (ha : 0 < a) (hb : 0 < b)
    (h : roundMagnitude (a * b) < limit) : Denotes (x * y) (roundMagnitude (a * b) : ℝ) := by
  have hproduct := hx.mul hy (not_annihilates_of_nonneg (EReal.coe_nonneg.mpr ha.le) (by simp))
  rwa [← EReal.coe_mul, nearest_of_roundMagnitude_lt (mul_pos ha hb).le h] at hproduct

theorem Denotes.div_of_pos (hx : Denotes x a) (hy : Denotes y b) (ha : 0 < a) (hb : 0 < b)
    (h : roundMagnitude (a / b) < limit) : Denotes (x / y) (roundMagnitude (a / b) : ℝ) := by
  have hquotient := hx.div hy hb.ne'
  rwa [← EReal.coe_div, nearest_of_roundMagnitude_lt (div_pos ha hb).le h] at hquotient

end

/-- Numbers that keep this distance from the limit stay below it when they are scaled. -/
noncomputable def headroom : ℝ := 2 ^ (975 : ℤ)

theorem headroom_pos : 0 < headroom := two_zpow_pos _

theorem error_lt_headroom : 12 * unitRoundoff * limit + underflowError < headroom := by
  have hunit : unitRoundoff * limit = 2 ^ (971 : ℤ) := by
    unfold unitRoundoff limit
    rw [← zpow_add₀ (by norm_num)]
    congr 1
  have hheadroom : headroom = 16 * 2 ^ (971 : ℤ) := by
    unfold headroom
    rw [show (975 : ℤ) = 4 + 971 by norm_num, zpow_add₀ (by norm_num)]
    norm_num
  have hunderflow : underflowError ≤ 2 ^ (971 : ℤ) := two_zpow_mono (by norm_num)
  have hpos := two_zpow_pos 971
  rw [mul_assoc, hunit, hheadroom]
  generalize (2 : ℝ) ^ (971 : ℤ) = unit at *
  linarith

theorem roundMagnitude_lt_limit {k : ℕ} {x exact : ℝ} (h : Near k x exact) (hk : k ≤ 9)
    (hexact : 0 < exact) (hbound : exact ≤ limit - headroom) : roundMagnitude x < limit := by
  have hhigh := (abs_le.mp (abs_roundMagnitude_sub_le_of_near h hk hexact)).2
  have hrelative : 12 * unitRoundoff * exact ≤ 12 * unitRoundoff * limit := by
    apply mul_le_mul_of_nonneg_left _ (by linarith [unitRoundoff_pos])
    linarith [headroom_pos]
  linarith [error_lt_headroom]

theorem headroom_le : headroom ≤ limit - headroom := by
  have hdouble : 2 * headroom = 2 ^ (976 : ℤ) := by
    unfold headroom
    rw [← zpow_one_add₀ two_ne_zero]
    congr 1
  have hlimit : (2 : ℝ) ^ (976 : ℤ) ≤ limit := two_zpow_mono (by norm_num)
  linarith

theorem natCast_div_le {n : ℕ} (h64 : n < 2 ^ 64) (k : ℕ) :
    (n : ℝ) / 10 ^ k ≤ limit - headroom := by
  have hle : (n : ℝ) ≤ 2 ^ (64 : ℤ) := by
    have hcast : (n : ℝ) ≤ 2 ^ 64 := by exact_mod_cast h64.le
    exact_mod_cast hcast
  calc (n : ℝ) / 10 ^ k ≤ n := div_le_self (Nat.cast_nonneg n) (one_le_pow₀ (by norm_num))
    _ ≤ 2 ^ (64 : ℤ) := hle
    _ ≤ headroom := two_zpow_mono (by norm_num)
    _ ≤ limit - headroom := headroom_le

/-- The greatest difference between a decimal number and the double it is scaled to. -/
noncomputable def scaledError (exact : ℝ) : ℝ := 12 * unitRoundoff * exact + underflowError

section

variable {n : ℕ} (hn : n ≠ 0) (h64 : n < 2 ^ 64)

include hn h64

/-- The product stays finite for numbers that keep some distance from the limit. -/
theorem exists_product {k : ℕ} (hk : k ≤ 308) (hbound : (n : ℝ) * 10 ^ k ≤ limit - headroom) :
    ∃ v : ℝ, Denotes (wholeFloat n * floatTenPow k) v ∧
      |v - n * 10 ^ k| ≤ scaledError (n * 10 ^ k) := by
  obtain ⟨a, ha, hnearA⟩ := exists_near_wholeFloat hn h64
  obtain ⟨b, hb, hnearB⟩ := exists_near_floatTenPow hk
  have hn' : (0 : ℝ) < n := by exact_mod_cast Nat.pos_of_ne_zero hn
  have hten : (0 : ℝ) < 10 ^ k := by positivity
  have hexact := mul_pos hn' hten
  have hnear := hnearA.mul hnearB hn' hten
  have hlimit := roundMagnitude_lt_limit hnear (by norm_num) hexact hbound
  exact ⟨_, ha.mul_of_pos hb (hnearA.pos hn') (hnearB.pos hten) hlimit,
    abs_roundMagnitude_sub_le_of_near hnear (by norm_num) hexact⟩

theorem exists_quotient {k : ℕ} (hk : k ≤ 308) :
    ∃ v : ℝ, Denotes (wholeFloat n / floatTenPow k) v ∧
      |v - n / 10 ^ k| ≤ scaledError (n / 10 ^ k) := by
  obtain ⟨a, ha, hnearA⟩ := exists_near_wholeFloat hn h64
  obtain ⟨b, hb, hnearB⟩ := exists_near_floatTenPow hk
  have hn' : (0 : ℝ) < n := by exact_mod_cast Nat.pos_of_ne_zero hn
  have hten : (0 : ℝ) < 10 ^ k := by positivity
  have hexact := div_pos hn' hten
  have hnear := hnearA.div hnearB hn' hten
  have hlimit := roundMagnitude_lt_limit hnear (by norm_num) hexact (natCast_div_le h64 _)
  exact ⟨_, ha.div_of_pos hb (hnearA.pos hn') (hnearB.pos hten) hlimit,
    abs_roundMagnitude_sub_le_of_near hnear (by norm_num) hexact⟩

/-- Below the smallest power of ten that is divided by at once, the first of two quotients may lack
two digits. -/
theorem exists_two_quotients {k : ℕ} (hk : k ≤ 308) :
    ∃ v : ℝ, Denotes (wholeFloat n / floatTenPow 308 / floatTenPow k) v ∧
      |v - n / 10 ^ 308 / 10 ^ k| ≤ scaledError (n / 10 ^ 308 / 10 ^ k) := by
  obtain ⟨a, ha, hnearA⟩ := exists_near_wholeFloat hn h64
  obtain ⟨b, hb, hnearB⟩ := exists_near_floatTenPow le_rfl
  obtain ⟨c, hc, hnearC⟩ := exists_near_floatTenPow hk
  have hn' : (1 : ℝ) ≤ n := by exact_mod_cast Nat.one_le_iff_ne_zero.mpr hn
  have hbig : (0 : ℝ) < 10 ^ 308 := by positivity
  have hten : (0 : ℝ) < 10 ^ k := by positivity
  have hpart : (0 : ℝ) < n / 10 ^ 308 := div_pos (by linarith) hbig
  have hnear := hnearA.div hnearB (by linarith) hbig
  have hlow : (2 : ℝ) ^ (-1024 : ℤ) ≤ a / b := by
    have hone : (1 : ℝ) ≤ a / b * limit := by
      have hge := hnear.ge
      rw [div_le_iff₀ hbig] at hge
      calc (1 : ℝ) ≤ n := hn'
        _ ≤ a / b * roundoffFactor ^ 2 * 10 ^ 308 := hge
        _ = a / b * (10 ^ 308 * roundoffFactor ^ 2) := by
          rw [mul_assoc, mul_comm (roundoffFactor ^ 2)]
        _ ≤ a / b * limit := mul_le_mul_of_nonneg_left tenPow_308_mul_lt.le (hnear.pos hpart).le
    have hlimit : (2 : ℝ) ^ (-1024 : ℤ) * limit = 1 := by
      unfold limit
      rw [← zpow_add₀ two_ne_zero]
      norm_num
    exact le_of_mul_le_mul_right (hlimit.trans_le hone) limit_pos
  have hlimit := roundMagnitude_lt_limit hnear (by norm_num) hpart (natCast_div_le h64 _)
  have hfirst := ha.div_of_pos hb (hnearA.pos (by linarith)) (hnearB.pos hbig) hlimit
  have hnearFirst := (near_roundMagnitude_of_le hlow).trans hnear
  have hnearSecond := hnearFirst.div hnearC hpart hten
  have hexact := div_pos hpart hten
  have hbound : (n : ℝ) / 10 ^ 308 / 10 ^ k ≤ limit - headroom :=
    (div_le_self hpart.le (one_le_pow₀ (by norm_num))).trans (natCast_div_le h64 _)
  have hlimit' := roundMagnitude_lt_limit hnearSecond (by norm_num) hexact hbound
  exact ⟨_, hfirst.div_of_pos hc (hnearFirst.pos hpart) (hnearC.pos hten) hlimit',
    abs_roundMagnitude_sub_le_of_near hnearSecond (by norm_num) hexact⟩

/-! ## Scaling -/

omit h64 in
theorem le_308_of_mul_lt {k : ℕ} (h : (n : ℝ) * 10 ^ k < limit) : k ≤ 308 := by
  by_contra hk
  have hlimit : limit = ((2 ^ 1024 : ℕ) : ℝ) := by
    rw [Nat.cast_pow, Nat.cast_ofNat]
    exact zpow_natCast 2 1024
  have hlt : n * 10 ^ k < 2 ^ 1024 := by
    rw [hlimit] at h
    exact_mod_cast h
  have hk' : 309 ≤ k := by omega
  have hten : 2 ^ 1024 < 10 ^ 309 := by
    rw [pow_mul 2 256 4, pow_mul 10 103 3]
    norm_num
  apply lt_asymm hlt
  calc 2 ^ 1024 < 10 ^ 309 := hten
    _ ≤ 10 ^ k := pow_le_pow_right₀ (by decide) hk'
    _ ≤ n * 10 ^ k := Nat.le_mul_of_pos_left _ (Nat.pos_of_ne_zero hn)

omit hn in
theorem mul_zpow_le_underflowError {e : ℤ} (he : e ≤ -617) : (n : ℝ) * 10 ^ e ≤ underflowError := by
  have hten : (10 : ℝ) ^ e ≤ 10 ^ (-617 : ℤ) := zpow_le_zpow_right₀ (by norm_num) he
  have hpow : (2 : ℝ) ^ 64 * 2 ^ 1075 ≤ 10 ^ 617 := by
    rw [pow_mul 2 215 5, pow_succ 10 (154 * 4), pow_mul 10 154 4]
    norm_num
  have hn' : (n : ℝ) ≤ 2 ^ 64 := by exact_mod_cast h64.le
  have hunderflow : underflowError = 1 / 2 ^ 1075 := by
    unfold underflowError
    rw [zpow_neg, one_div]
    rfl
  calc (n : ℝ) * 10 ^ e ≤ 2 ^ 64 * 10 ^ (-617 : ℤ) :=
        mul_le_mul hn' hten (by positivity) (by positivity)
    _ = 2 ^ 64 / 10 ^ 617 := by
        rw [zpow_neg, ← div_eq_mul_inv]
        rfl
    _ ≤ underflowError := by
        rw [hunderflow, div_le_div_iff₀ (by positivity) (by positivity), one_mul]
        exact hpow

omit h64 in
theorem scaledMagnitude?_natCast {k : ℕ} (hk : k ≤ 308)
    (hfinite : (wholeFloat n * floatTenPow k).isFinite = true) :
    Decimal.scaledMagnitude? n k = some (wholeFloat n * floatTenPow k) := by
  have hgreatest : ((k : ℤ) ≤ (greatestTenPower : ℕ)) := Int.ofNat_le.mpr hk
  unfold Decimal.scaledMagnitude?
  dsimp only
  rw [if_neg hn, if_pos (Int.natCast_nonneg k), Int.toNat_natCast, hfinite,
    decide_eq_true hgreatest]
  rfl

omit h64 in
theorem scaledMagnitude?_neg {k : ℕ} (hpos : k ≠ 0) (hk : k ≤ 308) :
    Decimal.scaledMagnitude? n (-k) = some (wholeFloat n / floatTenPow k) := by
  have hgreatest : ((greatestTenPower : ℕ) : ℤ) = 308 := rfl
  unfold Decimal.scaledMagnitude?
  dsimp only
  rw [if_neg hn, hgreatest, if_neg (by omega), if_pos (by omega), neg_neg, Int.toNat_natCast]

omit h64 in
theorem scaledMagnitude?_neg_two {k : ℕ} (hpos : k ≠ 0) (hk : k ≤ 308) :
    Decimal.scaledMagnitude? n (-308 - k) =
      some (wholeFloat n / floatTenPow 308 / floatTenPow k) := by
  have hgreatest : ((greatestTenPower : ℕ) : ℤ) = 308 := rfl
  unfold Decimal.scaledMagnitude?
  dsimp only
  rw [if_neg hn, hgreatest, if_neg (by omega), if_neg (by omega), if_pos (by omega),
    show (-(-308 - (k : ℤ)) - 308).toNat = k by omega]
  rfl

omit h64 in
theorem scaledMagnitude?_small {e : ℤ} (he : e ≤ -617) :
    Decimal.scaledMagnitude? n e = some 0.0 := by
  have hgreatest : ((greatestTenPower : ℕ) : ℤ) = 308 := rfl
  unfold Decimal.scaledMagnitude?
  dsimp only
  rw [if_neg hn, hgreatest, if_neg (by omega), if_neg (by omega), if_neg (by omega)]

/-- A decimal number that is not too close to the limit becomes a double close to it. -/
theorem exists_scaledMagnitude? {e : ℤ} (hbound : (n : ℝ) * 10 ^ e ≤ limit - headroom) :
    ∃ y, ∃ v : ℝ, Decimal.scaledMagnitude? n e = some y ∧ Denotes y v ∧
      |v - n * 10 ^ e| ≤ scaledError (n * 10 ^ e) := by
  by_cases hwhole : 0 ≤ e
  · obtain ⟨k, rfl⟩ := Int.eq_ofNat_of_zero_le hwhole
    rw [zpow_natCast] at hbound ⊢
    have hk : k ≤ 308 := le_308_of_mul_lt hn (by linarith [headroom_pos])
    obtain ⟨v, hv, herror⟩ := exists_product hn h64 hk hbound
    exact ⟨_, v, scaledMagnitude?_natCast hn hk (hv.isFinite_iff.mpr ⟨v, rfl⟩), hv, herror⟩
  by_cases hone : -308 ≤ e
  · obtain ⟨k, rfl⟩ : ∃ k : ℕ, e = -k := ⟨(-e).toNat, by omega⟩
    obtain ⟨v, hv, herror⟩ := exists_quotient hn h64 (k := k) (by omega)
    rw [zpow_neg, zpow_natCast, ← div_eq_mul_inv]
    exact ⟨_, v, scaledMagnitude?_neg hn (by omega) (by omega), hv, herror⟩
  by_cases htwo : -616 ≤ e
  · obtain ⟨k, rfl⟩ : ∃ k : ℕ, e = -308 - k := ⟨(-e - 308).toNat, by omega⟩
    obtain ⟨v, hv, herror⟩ := exists_two_quotients hn h64 (k := k) (by omega)
    have hvalue : (n : ℝ) * 10 ^ (-308 - k : ℤ) = n / 10 ^ 308 / 10 ^ k := by
      rw [zpow_sub₀ (by norm_num), zpow_neg, zpow_natCast, ← mul_div_assoc,
        div_eq_mul_inv _ (10 ^ 308)]
      rfl
    rw [hvalue]
    exact ⟨_, v, scaledMagnitude?_neg_two hn (by omega) (by omega), hv, herror⟩
  · refine ⟨0.0, 0, scaledMagnitude?_small hn (by omega), denotes_zero, ?_⟩
    have hsmall := mul_zpow_le_underflowError h64 (e := e) (by omega)
    have hpos : 0 ≤ (n : ℝ) * 10 ^ e := by positivity
    have hrelative := mul_nonneg (mul_nonneg (by norm_num : (0 : ℝ) ≤ 12) unitRoundoff_pos.le) hpos
    rw [zero_sub, abs_neg, abs_of_nonneg hpos]
    unfold scaledError
    linarith

end

/-! ## Exact scaling -/

theorem isMagnitude_tenPow {k : ℕ} (hk : k ≤ 22) : IsMagnitude ((10 ^ k : ℕ) : ℝ) := by
  have hpow : 10 ^ k ≤ 10 ^ 22 := Nat.pow_le_pow_right (by decide) hk
  refine ⟨⟨5 ^ k, k, ?_, by omega, ?_⟩, ?_⟩
  · calc 5 ^ k ≤ 5 ^ 22 := Nat.pow_le_pow_right (by decide) hk
      _ < 2 ^ 53 := by decide
  · rw [zpow_natCast]
    push_cast
    rw [← mul_pow]
    norm_num
  · calc ((10 ^ k : ℕ) : ℝ) ≤ ((10 ^ 22 : ℕ) : ℝ) := Nat.cast_le.mpr hpow
      _ ≤ 2 ^ (74 : ℤ) := by norm_num
      _ < limit := zpow_lt_zpow_right₀ (by norm_num) (by norm_num)

theorem denotes_floatTenPow_exact {k : ℕ} (hk : k ≤ 22) :
    Denotes (floatTenPow k) ((10 ^ k : ℕ) : ℝ) := by
  rw [← (isMagnitude_tenPow hk).nearest_eq]
  exact denotes_floatTenPow (by omega)

theorem mul_tenPow_le {n k : ℕ} (hn : n ≤ 2 ^ 53) (hk : k ≤ 22) :
    (n : ℝ) * ((10 ^ k : ℕ) : ℝ) ≤ limit - headroom := by
  have hnat : n * 10 ^ k ≤ 2 ^ 53 * 10 ^ 22 :=
    Nat.mul_le_mul hn (Nat.pow_le_pow_right (by decide) hk)
  calc (n : ℝ) * ((10 ^ k : ℕ) : ℝ) = ((n * 10 ^ k : ℕ) : ℝ) := (Nat.cast_mul _ _).symm
    _ ≤ ((2 ^ 53 * 10 ^ 22 : ℕ) : ℝ) := Nat.cast_le.mpr hnat
    _ ≤ 2 ^ (127 : ℤ) := by norm_num
    _ ≤ headroom := two_zpow_mono (by norm_num)
    _ ≤ limit - headroom := headroom_le

/-- Digits and powers of ten that are doubles themselves are scaled to the nearest double. -/
theorem exists_scaledMagnitude?_exact {n : ℕ} {e : ℤ} (hn : n ≠ 0) (hdigits : n ≤ 2 ^ 53)
    (hlow : -22 ≤ e) (hhigh : e ≤ 22) :
    ∃ y, Decimal.scaledMagnitude? n e = some y ∧ Denotes y (nearest ((n * 10 ^ e : ℝ))) := by
  have hdenotes := denotes_wholeFloat hdigits
  by_cases hwhole : 0 ≤ e
  · obtain ⟨k, rfl⟩ := Int.eq_ofNat_of_zero_le hwhole
    have hn' : (0 : ℝ) < n := by exact_mod_cast Nat.pos_of_ne_zero hn
    have hten : (0 : ℝ) < ((10 ^ k : ℕ) : ℝ) := by positivity
    have hexact := mul_pos hn' hten
    have hlimit := roundMagnitude_lt_limit (Near.refl _) (Nat.zero_le 9) hexact
      (mul_tenPow_le hdigits (k := k) (by omega))
    have hproduct := hdenotes.mul_of_pos (denotes_floatTenPow_exact (k := k) (by omega)) hn' hten
      hlimit
    have hpow : (n : ℝ) * 10 ^ (k : ℤ) = n * ((10 ^ k : ℕ) : ℝ) := by
      rw [zpow_natCast]
      push_cast
      rfl
    refine ⟨_, scaledMagnitude?_natCast hn (by omega) (hproduct.isFinite_iff.mpr ⟨_, rfl⟩), ?_⟩
    rw [hpow, nearest_of_roundMagnitude_lt hexact.le hlimit]
    exact hproduct
  · obtain ⟨k, rfl⟩ : ∃ k : ℕ, e = -k := ⟨(-e).toNat, by omega⟩
    have hquotient := hdenotes.div (denotes_floatTenPow_exact (k := k) (by omega)) (by positivity)
    have hpow : (n : ℝ) * 10 ^ (-k : ℤ) = n / ((10 ^ k : ℕ) : ℝ) := by
      rw [zpow_neg, zpow_natCast, ← div_eq_mul_inv]
      push_cast
      rfl
    rw [hpow, EReal.coe_div]
    exact ⟨_, scaledMagnitude?_neg hn (by omega) (by omega), hquotient⟩

/-! ## Decimals with a sign -/

theorem exists_scaled? {d : Decimal} (hn : d.digits ≠ 0) (h64 : d.digits < 2 ^ 64)
    (hbound : (d.digits : ℝ) * 10 ^ d.exponent ≤ limit - headroom) :
    ∃ y, ∃ v : ℝ, d.scaled? = some y ∧ Denotes y (withSign d.negative v : ℝ) ∧
      |v - d.digits * 10 ^ d.exponent| ≤ scaledError (d.digits * 10 ^ d.exponent) := by
  obtain ⟨y, v, hscaled, hy, herror⟩ := exists_scaledMagnitude? hn h64 hbound
  refine ⟨_, v, ?_, hy.withSign d.negative, herror⟩
  unfold Decimal.scaled?
  rw [hscaled]
  rfl

/-! ## Decimals of few digits -/

theorem ofScientific_eq {n k : ℕ} (hn : n < 2 ^ 53) (hk : k ≤ 22) (below : Bool) :
    Float.ofScientific n below k =
      if below then wholeFloat n / floatTenPow k else wholeFloat n * floatTenPow k := by
  obtain ⟨hsize, hentry⟩ := Array.getElem?_eq_some_iff.mp (floatTenPow_table k hk).1
  unfold Float.ofScientific
  rw [dif_pos ⟨hn, hk⟩]
  dsimp only
  rw [hentry]
  rfl

/-- For few digits and places the nearest double is the product or the quotient. -/
theorem toFloat_of_scaledMagnitude? {negative : Bool} {n : ℕ} {e : ℤ} {y : Float} (hn : n ≠ 0)
    (hdigits : n < 10 ^ 15) (hlow : -22 ≤ e) (hhigh : e ≤ 22)
    (h : Decimal.scaledMagnitude? n e = some y) :
    Decimal.toFloat ⟨negative, n, e⟩ = if negative then -y else y := by
  have hlength : (Decimal.digitChars n).length ≤ 15 :=
    (Nat.length_toDigits_le_iff (by decide) (by decide)).mpr hdigits
  have hsmall : n < 2 ^ 53 := hdigits.trans (by decide)
  unfold Decimal.toFloat
  dsimp only
  rw [if_neg hn, if_neg (show ¬ 310 < ((Decimal.digitChars n).length : ℤ) + e by omega),
    if_neg (show ¬ ((Decimal.digitChars n).length : ℤ) + e < -330 by omega)]
  by_cases hwhole : 0 ≤ e
  · obtain ⟨k, rfl⟩ := Int.eq_ofNat_of_zero_le hwhole
    rw [if_pos hwhole, Int.toNat_natCast, ofScientific_eq hsmall (by omega)]
    unfold Decimal.scaledMagnitude? at h
    dsimp only at h
    rw [if_neg hn, if_pos hwhole, Int.toNat_natCast] at h
    split at h
    · rw [← Option.some.inj h]
      rfl
    · cases h
  · obtain ⟨k, rfl⟩ : ∃ k : ℕ, e = -k := ⟨(-e).toNat, by omega⟩
    rw [if_neg hwhole, neg_neg, Int.toNat_natCast, ofScientific_eq hsmall (by omega)]
    rw [scaledMagnitude?_neg hn (by omega) (by omega)] at h
    rw [← Option.some.inj h]
    rfl

/-- A decimal number of few digits and places becomes the double nearest to it. -/
theorem denotes_toFloat (negative : Bool) {n k : ℕ} (hn : n ≠ 0) (hdigits : n < 10 ^ 15)
    (hk : k ≤ 22) :
    Denotes (Decimal.toFloat ⟨negative, n, -k⟩)
      (withSign negative (roundMagnitude (n * 10 ^ (-k : ℤ))) : ℝ) := by
  have hpos : (0 : ℝ) < n * 10 ^ (-k : ℤ) :=
    mul_pos (by exact_mod_cast Nat.pos_of_ne_zero hn) (by positivity)
  have hbound : (n : ℝ) * 10 ^ (-k : ℤ) ≤ limit - headroom := by
    rw [zpow_neg, zpow_natCast, ← div_eq_mul_inv]
    exact natCast_div_le (hdigits.trans (by decide)) k
  obtain ⟨y, hscaled, hy⟩ := exists_scaledMagnitude?_exact hn (hdigits.le.trans (by decide))
    (e := -k) (by omega) (by omega)
  rw [toFloat_of_scaledMagnitude? hn hdigits (by omega) (by omega) hscaled]
  rw [nearest_of_roundMagnitude_lt hpos.le
    (roundMagnitude_lt_limit (Near.refl _) (Nat.zero_le 9) hpos hbound)] at hy
  exact hy.withSign negative

end CodeQuality.Double
