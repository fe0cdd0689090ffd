import CodeQuality.Proofs.Double.Denotation

/-!
Whole numbers among the doubles.

Up to `2 ^ 53` whole numbers are doubles and add up without an error. Rounding to a whole number
and limiting to the scale of scores are here the functions on extended real numbers that they
compute.
-/

namespace CodeQuality.Double

open Float.Model (UnpackedFloat)
open Float.Model.UnpackedFloat

/-! ## Exact whole numbers -/

theorem denotes_ofNat_nearest (n : ℕ) :
    Denotes (.ofModel (.pack (ofNat .binary64 n))) (nearest (n : ℝ)) := by
  have hnormal := denotes_of_packsTo (packsTo_normalize n 0 .positive)
  rw [zpow_zero, mul_one, Int.cast_natCast] at hnormal
  exact hnormal

theorem denotes_ofNat {n : ℕ} (h : n ≤ 2 ^ 53) :
    Denotes (.ofModel (.pack (ofNat .binary64 n))) (n : ℝ) := by
  have hnearest := denotes_ofNat_nearest n
  rwa [nearest_natCast h] at hnearest

theorem denotes_wholeFloat_nearest {n : ℕ} (h : n < 2 ^ 64) :
    Denotes (wholeFloat n) (nearest (n : ℝ)) := by
  have hn : n.toUInt64.toNat = n := Nat.mod_eq_of_lt h
  have hwhole : wholeFloat n = .ofModel (.pack (ofNat .binary64 n.toUInt64.toNat)) := rfl
  rw [hwhole, hn]
  exact denotes_ofNat_nearest n

theorem denotes_wholeFloat {n : ℕ} (h : n ≤ 2 ^ 53) : Denotes (wholeFloat n) (n : ℝ) := by
  rw [← nearest_natCast h]
  exact denotes_wholeFloat_nearest (by omega)

theorem denotes_toFloat_uint32 (n : UInt32) : Denotes n.toFloat (n.toNat : ℝ) := by
  have := n.toNat_lt
  exact denotes_ofNat (by omega)

/-- Counts of 64 bits may be rounded, but stay positive and finite. -/
theorem exists_denotes_toFloat_uint64 {n : UInt64} (h : n ≠ 0) :
    ∃ d : ℝ, Denotes n.toFloat d ∧ 0 < d := by
  have hpos : 1 ≤ n.toNat := by
    rcases Nat.eq_zero_or_pos n.toNat with hzero | hpos
    · exact absurd (UInt64.toNat_inj.mp hzero) h
    · exact hpos
  -- One and `2 ^ 64` are doubles, so rounding does not leave the range between them.
  have hlow : ((1 : ℕ) : ℝ) ≤ nearest (n.toNat : ℝ) := by
    rw [← nearest_natCast (n := 1) (by norm_num)]
    exact nearest_mono (EReal.coe_le_coe_iff.mpr (Nat.cast_le.mpr hpos))
  have hbound : IsMagnitude (((1 : ℕ) : ℝ) * 2 ^ (64 : ℤ)) := by
    refine ⟨⟨1, 64, by norm_num, by norm_num, rfl⟩, ?_⟩
    rw [Nat.cast_one, one_mul]
    exact zpow_lt_zpow_right₀ (by norm_num) (by norm_num)
  have hhigh : nearest (n.toNat : ℝ) ≤ ((((1 : ℕ) : ℝ) * 2 ^ (64 : ℤ) : ℝ) : EReal) := by
    rw [← hbound.nearest_eq]
    apply nearest_mono
    apply EReal.coe_le_coe_iff.mpr
    have hlt : (n.toNat : ℝ) ≤ ((2 ^ 64 : ℕ) : ℝ) := Nat.cast_le.mpr n.toNat_lt.le
    rw [Nat.cast_one, one_mul]
    exact_mod_cast hlt
  have hzero : (0 : EReal) ≤ ((1 : ℕ) : ℝ) := EReal.coe_nonneg.mpr (Nat.cast_nonneg 1)
  obtain ⟨d, hd, -, -⟩ := exists_real (hzero.trans hlow) hhigh
  rw [hd, EReal.coe_le_coe_iff, Nat.cast_one] at hlow
  exact ⟨d, hd ▸ denotes_ofNat_nearest n.toNat, by linarith⟩

theorem zero_eq_wholeFloat : (0.0 : Float) = wholeFloat 0 := by decide

theorem denotes_zero : Denotes 0.0 0 := by
  rw [zero_eq_wholeFloat]
  exact_mod_cast denotes_wholeFloat (n := 0) (by norm_num)

theorem denotes_neg_zero : Denotes (-0.0) 0 := by simpa using denotes_zero.neg

theorem denotes_one : Denotes 1.0 1 := by
  have h : (1.0 : Float) = wholeFloat 1 := by decide
  rw [h]
  exact_mod_cast denotes_wholeFloat (n := 1) (by norm_num)

theorem denotes_hundred : Denotes 100.0 100 := by
  have h : (100.0 : Float) = wholeFloat 100 := by decide
  rw [h]
  exact_mod_cast denotes_wholeFloat (n := 100) (by norm_num)

/-- Only the two zeros are different doubles of one number. -/
theorem eq_of_denotes {x y : Float} {r : ℝ} (hx : Denotes x r) (hy : Denotes y r) (hr : r ≠ 0) :
    x = y := by
  have hunpack : x.toModel.unpack = y.toModel.unpack := by
    apply eq_of_value_eq hx.isNumber hy.isNumber
    · rw [hx.value_eq, hy.value_eq]
    · rw [hx.value_eq]
      exact EReal.coe_ne_zero.mpr hr
  obtain ⟨b, hb⟩ : ∃ b, parts? x.toModel.unpack = some b := by
    have hvalue := hx.value_eq
    have hnumber := hx.isNumber.ne_notANumber
    cases hu : x.toModel.unpack with
    | notANumber => exact absurd hu hnumber
    | infinity s => cases s <;> simp [hu, value] at hvalue
    | zero s => exact ⟨_, rfl⟩
    | finite s m e hm => exact ⟨_, rfl⟩
  apply ofFloat?_injective (b := b)
  · rw [ofFloat?_eq_parts?, hb]
  · rw [ofFloat?_eq_parts?, ← hunpack, hb]

/-- Sums of whole numbers are exact as long as they stay in range; the sum is never the negative
zero, whichever zeros are added. -/
theorem wholeFloat_add {m n : ℕ} {x : Float} (hx : Denotes x (n : ℝ)) (h : m + n ≤ 2 ^ 53) :
    wholeFloat m + x = wholeFloat (m + n) := by
  have hm := denotes_wholeFloat (n := m) (by omega)
  have hsum := hm.add hx (not_cancels_of_coe_left _ _)
  rw [← EReal.coe_add, ← Nat.cast_add, nearest_natCast h] at hsum
  rcases Nat.eq_zero_or_pos (m + n) with hzero | hpos
  · -- A zero sum may come from either zero, so the bits are looked at.
    obtain ⟨rfl, rfl⟩ : m = 0 ∧ n = 0 := by omega
    obtain ⟨s, hs⟩ := hx.isNumber.eq_zero (by rw [hx.value_eq]; simp)
    have hunpack : (wholeFloat 0).toModel.unpack = .zero .positive := rfl
    show Float.ofModel (.pack (add .binary64 (wholeFloat 0).toModel.unpack x.toModel.unpack)) = _
    rw [hs, hunpack]
    cases s <;> decide
  · refine eq_of_denotes hsum (denotes_wholeFloat h) ?_
    exact_mod_cast hpos.ne'

/-! ## Rounding to a whole number -/

theorem roundHalfAway_of_parts {x : Float} {b : Binary64} (h : parts? x.toModel.unpack = some b) :
    roundHalfAway x =
      if 0 ≤ b.exponent then x
      else if b.negative then -wholeFloat ((b.significand / twoPow (-b.exponent - 1).toNat + 1) / 2)
      else wholeFloat ((b.significand / twoPow (-b.exponent - 1).toNat + 1) / 2) := by
  unfold roundHalfAway
  rw [ofFloat?_eq_parts?, h]

theorem roundHalfAway_of_none {x : Float} (h : parts? x.toModel.unpack = none) :
    roundHalfAway x = x := by
  unfold roundHalfAway
  rw [ofFloat?_eq_parts?, h]

theorem isNaN_roundHalfAway {x : Float} (h : x.isNaN = true) : (roundHalfAway x).isNaN = true := by
  rw [roundHalfAway_of_none (by rw [(isNaN_iff x).mp h]; rfl)]
  exact h

theorem denotes_roundHalfAway_positive {x : Float} {m : ℕ} {e : ℤ} {hm : 0 < m}
    (hu : x.toModel.unpack = .finite .positive m e hm) (hx : Denotes x (m * 2 ^ e : ℝ)) :
    Denotes (roundHalfAway x) (⌊(m : ℝ) * 2 ^ e + 1 / 2⌋₊ : ℝ) := by
  have hdigits : m < 2 ^ 53 := by
    have hcanonical := hx.isNumber.canonical
    rw [hu] at hcanonical
    exact hcanonical.1
  rw [roundHalfAway_of_parts (by rw [hu]; rfl)]
  show Denotes (if 0 ≤ e then x else wholeFloat ((m / 2 ^ (-e - 1).toNat + 1) / 2)) _
  by_cases he : 0 ≤ e
  · -- Without digits below the point the double is whole already.
    obtain ⟨k, rfl⟩ := Int.eq_ofNat_of_zero_le he
    have hnat : (m : ℝ) * 2 ^ (k : ℤ) = ((m * 2 ^ k : ℕ) : ℝ) := by
      push_cast
      rw [zpow_natCast]
    rw [hnat] at hx ⊢
    rw [if_pos he]
    show Denotes x (toWhole ((m * 2 ^ k : ℕ) : ℝ))
    rw [toWhole_natCast]
    exact hx
  · -- With digits below the point the number is under `2 ^ 53`, and so is the whole one.
    obtain ⟨k, rfl⟩ : ∃ k : ℕ, e = -((k : ℤ) + 1) := ⟨(-e - 1).toNat, by omega⟩
    have hk : (- -((k : ℤ) + 1) - 1).toNat = k := by omega
    rw [if_neg he, hk, floor_add_half]
    apply denotes_wholeFloat
    have := Nat.div_le_self m (2 ^ k)
    omega

/-- Numbers from zero on are rounded to the nearest whole number. -/
theorem denotes_roundHalfAway {x : Float} {v : EReal} (h : Denotes x v) (hv : 0 ≤ v) :
    Denotes (roundHalfAway x) (toWhole v) := by
  have hnumber := h.isNumber
  have hvalue := h.value_eq
  cases hu : x.toModel.unpack with
  | notANumber => exact absurd hu hnumber.ne_notANumber
  | infinity s =>
    rw [hu] at hvalue
    cases s with
    | negative => exact absurd hv (by rw [← hvalue]; simp [value])
    | positive =>
      rw [roundHalfAway_of_none (by rw [hu]; rfl), ← hvalue]
      exact ⟨hnumber, by rw [hu]; rfl⟩
  | zero s =>
    rw [hu] at hvalue
    have hzero : Denotes (wholeFloat 0) 0 := by
      simpa using denotes_wholeFloat (n := 0) (by norm_num)
    have hwhole : toWhole v = 0 := by
      rw [← hvalue]
      exact toWhole_zero
    rw [roundHalfAway_of_parts (by rw [hu]; rfl), hwhole,
      if_neg (show ¬ (0 : ℤ) ≤ -1074 by decide), Nat.zero_div]
    cases s with
    | negative =>
      show Denotes (-wholeFloat 0) 0
      simpa using hzero.neg
    | positive => exact hzero
  | finite s m e hm =>
    rw [hu] at hvalue hnumber
    have hpos := mul_zpow_pos hm e
    cases s with
    | negative =>
      rw [← hvalue] at hv
      exact absurd (EReal.coe_nonneg.mp hv) (not_le.mpr (neg_lt_zero.mpr hpos))
    | positive =>
      rw [← hvalue]
      exact denotes_roundHalfAway_positive hu ⟨h.isNumber, by rw [hu]; rfl⟩

/-- Numbers up to zero are rounded to such a number. -/
theorem exists_denotes_roundHalfAway_of_nonpos {x : Float} {v : EReal} (h : Denotes x v)
    (hv : v ≤ 0) : ∃ u ≤ 0, Denotes (roundHalfAway x) u := by
  rcases hv.eq_or_lt with rfl | hneg
  · exact ⟨toWhole 0, toWhole_zero.le, denotes_roundHalfAway h le_rfl⟩
  have hnumber := h.isNumber
  have hvalue := h.value_eq
  cases hu : x.toModel.unpack with
  | notANumber => exact absurd hu hnumber.ne_notANumber
  | infinity s => exact ⟨v, hv, by rwa [roundHalfAway_of_none (by rw [hu]; rfl)]⟩
  | zero s => exact absurd hneg (by rw [← hvalue, hu]; simp [value])
  | finite s m e hm =>
    rw [hu] at hvalue hnumber
    have hdigits : m < 2 ^ 53 := hnumber.canonical.1
    cases s with
    | positive =>
      rw [← hvalue] at hv
      exact absurd (EReal.coe_nonpos.mp hv) (not_le.mpr (mul_zpow_pos hm e))
    | negative =>
      rw [roundHalfAway_of_parts (by rw [hu]; rfl)]
      show ∃ u ≤ 0, Denotes (if 0 ≤ e then x else
        -wholeFloat ((m / twoPow (-e - 1).toNat + 1) / 2)) u
      by_cases he : 0 ≤ e
      · exact ⟨v, hv, by rwa [if_pos he]⟩
      · have hhalf : (m / twoPow (-e - 1).toNat + 1) / 2 ≤ 2 ^ 53 := by
          have := Nat.div_le_self m (twoPow (-e - 1).toNat)
          omega
        rw [if_neg he]
        refine ⟨_, ?_, (denotes_wholeFloat hhalf).neg⟩
        rw [EReal.neg_le, neg_zero]
        exact EReal.coe_nonneg.mpr (Nat.cast_nonneg _)

/-! ## Limiting to the scale -/

theorem isNaN_clampScore {x : Float} (h : x.isNaN = true) : (clampScore x).isNaN = true := by
  unfold clampScore
  rw [if_neg (not_lt_of_isNaN_left h _), if_neg (not_lt_of_isNaN_right _ h)]
  exact h

theorem denotes_clampScore {x : Float} {v : EReal} (h : Denotes x v) :
    Denotes (clampScore x) (max 0 (min v 100)) := by
  unfold clampScore
  by_cases hlow : x < 0.0
  · have hv := (h.lt_iff denotes_zero).mp hlow
    rw [if_pos hlow, max_eq_left ((min_le_left _ _).trans hv.le)]
    exact denotes_zero
  have hzero : 0 ≤ v := not_lt.mp (mt (h.lt_iff denotes_zero).mpr hlow)
  rw [if_neg hlow]
  by_cases hhigh : 100.0 < x
  · have hv := (denotes_hundred.lt_iff h).mp hhigh
    rw [if_pos hhigh, min_eq_right hv.le, max_eq_right (by norm_num)]
    exact denotes_hundred
  · have hv : v ≤ 100 := not_lt.mp (mt (denotes_hundred.lt_iff h).mpr hhigh)
    rw [if_neg hhigh, min_eq_left hv, max_eq_right hzero]
    exact h

/-! ## What is left of 100 points -/

theorem hundred_eq : (100 : EReal) = ((100 : ℕ) : ℝ) := (Nat.cast_ofNat).symm

noncomputable def remainder (v : EReal) : EReal := max 0 (min (nearest (100 - v)) 100)

theorem remainder_anti {u v : EReal} (h : u ≤ v) : remainder v ≤ remainder u := by
  have hdifference : nearest (100 - v) ≤ nearest (100 - u) :=
    nearest_mono (EReal.sub_le_sub le_rfl h)
  exact max_le_max le_rfl (min_le_min hdifference le_rfl)

theorem remainder_top : remainder ⊤ = 0 := by
  have hbot : nearest (100 - ⊤) = ⊥ := by
    rw [EReal.sub_top]
    rfl
  unfold remainder
  rw [hbot, min_eq_left bot_le, max_eq_left bot_le]

/-- Whole penalties leave whole scores, and penalties above 100 leave nothing. -/
theorem remainder_natCast (n : ℕ) : remainder (n : ℝ) = ((100 - n : ℕ) : ℝ) := by
  unfold remainder
  rw [hundred_eq, ← EReal.coe_sub]
  rcases le_total n 100 with hn | hn
  · have hlow : (0 : EReal) ≤ ((100 - n : ℕ) : ℝ) := EReal.coe_nonneg.mpr (Nat.cast_nonneg _)
    have hhigh : (((100 - n : ℕ) : ℝ) : EReal) ≤ ((100 : ℕ) : ℝ) :=
      EReal.coe_le_coe_iff.mpr (Nat.cast_le.mpr (Nat.sub_le 100 n))
    rw [← Nat.cast_sub hn, nearest_natCast (by omega), min_eq_left hhigh, max_eq_right hlow]
  · have hneg : ((100 : ℕ) : ℝ) - n ≤ 0 := sub_nonpos.mpr (Nat.cast_le.mpr hn)
    have hlow : nearest ((((100 : ℕ) : ℝ) - n : ℝ)) ≤ 0 :=
      nearest_nonpos (by exact_mod_cast hneg)
    rw [max_eq_left ((min_le_left _ _).trans hlow), Nat.sub_eq_zero_of_le hn]
    simp

theorem denotes_clampScore_sub {p : Float} {v : EReal} (h : Denotes p v) :
    Denotes (clampScore (100.0 - p)) (remainder v) := by
  have hdifference := denotes_hundred.sub h (by
    rw [hundred_eq]
    exact not_cancels_of_coe_left _ _)
  exact denotes_clampScore hdifference

end CodeQuality.Double
