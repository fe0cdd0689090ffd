import CodeQuality.Proofs.Double.Unpacked

/-!
Rounding of significands.

The result of an operation is a significand with too many digits, or one with a remark on what was
cut off. It is shifted to the right, the last two digits lost being remembered, and rounded. This
is the rounding of `Rounding`: a shifted significand with its two residual digits says where the
exact number lies between two neighbours, and that is all that the nearest one depends on.
-/

namespace CodeQuality.Double

open Float.Model (Format UnpackedFloat totalExponent)
open Float.Model.UnpackedFloat

/-- A significand and its residual digits place a number between two whole numbers. -/
inductive Locates : ExtendedMantissa → ℝ → Prop
  | whole (m : ℕ) : Locates ⟨m, false, false⟩ m
  | belowHalf {m : ℕ} {q : ℝ} (hlow : m < q) (hhigh : q < m + 1 / 2) : Locates ⟨m, false, true⟩ q
  | half (m : ℕ) : Locates ⟨m, true, false⟩ (m + 1 / 2)
  | aboveHalf {m : ℕ} {q : ℝ} (hlow : m + 1 / 2 < q) (hhigh : q < m + 1) : Locates ⟨m, true, true⟩ q

namespace Locates

theorem le {em : ExtendedMantissa} {q : ℝ} (h : Locates em q) : (em.mantissa : ℝ) ≤ q := by
  cases h with
  | whole m => exact le_refl _
  | belowHalf hlow _ => exact hlow.le
  | half m => linarith
  | aboveHalf hlow _ => linarith

theorem lt_succ {em : ExtendedMantissa} {q : ℝ} (h : Locates em q) : q < em.mantissa + 1 := by
  cases h with
  | whole m => linarith
  | belowHalf _ hhigh => linarith
  | half m => linarith
  | aboveHalf _ hhigh => exact hhigh

theorem floor_eq {em : ExtendedMantissa} {q : ℝ} (h : Locates em q) : ⌊q⌋₊ = em.mantissa :=
  (Nat.floor_eq_iff ((Nat.cast_nonneg _).trans h.le)).mpr ⟨h.le, h.lt_succ⟩

theorem roundedMantissa_eq {em : ExtendedMantissa} {q : ℝ} (h : Locates em q) :
    em.roundedMantissa = nearestEven q := by
  have hfloor := h.floor_eq
  unfold nearestEven
  rw [hfloor]
  -- The residual digits decide which of the two neighbours is nearer.
  cases h with
  | whole m =>
    rw [sub_self, if_pos (by norm_num)]
    rfl
  | belowHalf hlow hhigh =>
    rw [if_pos (by linarith)]
    rfl
  | half m =>
    rw [if_neg (by linarith), if_pos (by ring)]
    rfl
  | aboveHalf hlow hhigh =>
    rw [if_neg (by linarith), if_neg (by linarith)]
    rfl

theorem shiftRightOne_even (k : ℕ) (r t : Bool) :
    (⟨2 * k, r, t⟩ : ExtendedMantissa).shiftRightOne = ⟨k, false, r || t⟩ := by
  simp [ExtendedMantissa.shiftRightOne]

theorem shiftRightOne_odd (k : ℕ) (r t : Bool) :
    (⟨2 * k + 1, r, t⟩ : ExtendedMantissa).shiftRightOne = ⟨k, true, r || t⟩ := by
  have hdiv : (2 * k + 1) / 2 = k := by omega
  have hmod : (2 * k + 1) % 2 = 1 := by omega
  simp [ExtendedMantissa.shiftRightOne, hdiv, hmod]

theorem shiftRightOne {em : ExtendedMantissa} {q : ℝ} (h : Locates em q) :
    Locates em.shiftRightOne (q / 2) := by
  -- The digit that is cut off is the new half, and what was cut off before only tells whether the
  -- number is above it.
  cases h with
  | whole m =>
    obtain ⟨k, rfl | rfl⟩ := m.even_or_odd'
    · have hq : ((2 * k : ℕ) : ℝ) / 2 = k := by push_cast; ring
      rw [shiftRightOne_even, hq]
      exact whole k
    · have hq : ((2 * k + 1 : ℕ) : ℝ) / 2 = k + 1 / 2 := by push_cast; ring
      rw [shiftRightOne_odd, hq]
      exact half k
  | @belowHalf m q hlow hhigh =>
    obtain ⟨k, rfl | rfl⟩ := m.even_or_odd' <;> push_cast at hlow hhigh
    · rw [shiftRightOne_even]
      exact belowHalf (by linarith) (by linarith)
    · rw [shiftRightOne_odd]
      exact aboveHalf (by linarith) (by linarith)
  | half m =>
    obtain ⟨k, rfl | rfl⟩ := m.even_or_odd'
    · rw [shiftRightOne_even]
      exact belowHalf (by push_cast; linarith) (by push_cast; linarith)
    · rw [shiftRightOne_odd]
      exact aboveHalf (by push_cast; linarith) (by push_cast; linarith)
  | @aboveHalf m q hlow hhigh =>
    obtain ⟨k, rfl | rfl⟩ := m.even_or_odd' <;> push_cast at hlow hhigh
    · rw [shiftRightOne_even]
      exact belowHalf (by linarith) (by linarith)
    · rw [shiftRightOne_odd]
      exact aboveHalf (by linarith) (by linarith)

theorem shiftRight {em : ExtendedMantissa} {q : ℝ} (h : Locates em q) (n : ℕ) :
    Locates (em >>> n) (q / 2 ^ n) := by
  show Locates (Nat.repeat ExtendedMantissa.shiftRightOne n em) _
  induction n with
  | zero => simpa [Nat.repeat] using h
  | succ n ih =>
    rw [pow_succ, ← div_div]
    exact ih.shiftRightOne

end Locates

-- What a division leaves over is compared with half of the divisor.
theorem locates_fraction (m : ℕ) {r d : ℕ} (h : r < d) :
    Locates (.ofMantissaAndAccuracy m (accuracyOfFraction r d)) (m + r / d) := by
  have hd : (0 : ℝ) < d := by exact_mod_cast (Nat.zero_le r).trans_lt h
  have hlt : (r : ℝ) / d < 1 := (div_lt_one hd).mpr (by exact_mod_cast h)
  unfold accuracyOfFraction
  by_cases hzero : r = 0
  · rw [if_pos hzero, hzero, Nat.cast_zero, zero_div, add_zero]
    exact .whole m
  have hpos : (0 : ℝ) < r / d := div_pos (by exact_mod_cast Nat.pos_of_ne_zero hzero) hd
  rw [if_neg hzero]
  rcases lt_trichotomy (2 * r) d with hcmp | hcmp | hcmp
  · rw [Nat.compare_eq_lt.mpr hcmp]
    have hcmp' : 2 * (r : ℝ) < d := by exact_mod_cast hcmp
    have hhalf : (r : ℝ) / d < 1 / 2 := by rw [div_lt_iff₀ hd]; linarith
    exact .belowHalf (by linarith) (by linarith)
  · rw [Nat.compare_eq_eq.mpr hcmp]
    have hcmp' : 2 * (r : ℝ) = d := by exact_mod_cast hcmp
    have hhalf : (r : ℝ) / d = 1 / 2 := by rw [div_eq_iff hd.ne']; linarith
    rw [hhalf]
    exact .half m
  · rw [Nat.compare_eq_gt.mpr hcmp]
    have hcmp' : (d : ℝ) < 2 * r := by exact_mod_cast hcmp
    have hhalf : 1 / 2 < (r : ℝ) / d := by rw [lt_div_iff₀ hd]; linarith
    exact .aboveHalf (by linarith) (by linarith)

/-! ## Rounding to the spacing of doubles -/

theorem targetExponent_eq (t : ℤ) : Format.binary64.targetExponent t = max (t - 53) (-1074) := rfl

/-- The exponent that a significand is shifted to is the spacing of the exact number. -/
theorem targetExponent_eq_spacing {m : ℕ} {e : ℤ} {x : ℝ} (hx : 0 < x) (hlow : m ≤ x / 2 ^ e)
    (hhigh : x / 2 ^ e < m + 1)
    (he : e ≤ Format.binary64.targetExponent (totalExponent m e)) :
    Format.binary64.targetExponent (totalExponent m e) = spacing x := by
  rw [le_div_iff₀ (two_zpow_pos e)] at hlow
  rw [div_lt_iff₀ (two_zpow_pos e)] at hhigh
  rw [targetExponent_eq] at he ⊢
  unfold totalExponent at he ⊢
  unfold spacing
  rcases Nat.eq_zero_or_pos m with rfl | hpos
  · -- Without a significand the number is below the least spacing.
    rw [Nat.log2_zero] at he ⊢
    rw [Nat.cast_zero, zero_add, one_mul] at hhigh
    have hlog : Int.log 2 x < e := by
      apply (Int.lt_zpow_iff_log_lt (by norm_num) hx).mp
      exact_mod_cast hhigh
    omega
  · have hlog : Int.log 2 x = m.log2 + e := by
      have hlo : ((2 ^ m.log2 : ℕ) : ℝ) ≤ m := by exact_mod_cast Nat.log2_self_le hpos.ne'
      have hhi : (m : ℝ) + 1 ≤ ((2 ^ (m.log2 + 1) : ℕ) : ℝ) := by exact_mod_cast Nat.lt_log2_self
      have hge : ((2 : ℕ) : ℝ) ^ ((m.log2 : ℤ) + e) ≤ x := by
        rw [add_comm, Nat.cast_ofNat, ← natCast_two_pow_mul_zpow]
        exact (mul_le_mul_of_nonneg_right hlo (two_zpow_pos e).le).trans hlow
      have hlt : x < ((2 : ℕ) : ℝ) ^ ((m.log2 : ℤ) + e + 1) := by
        rw [show (m.log2 : ℤ) + e + 1 = e + ((m.log2 + 1 : ℕ) : ℤ) by push_cast; ring,
          Nat.cast_ofNat, ← natCast_two_pow_mul_zpow]
        exact hhigh.trans_le (mul_le_mul_of_nonneg_right hhi (two_zpow_pos e).le)
      have := (Int.zpow_le_iff_le_log (by norm_num) hx).mp hge
      have := (Int.lt_zpow_iff_log_lt (by norm_num) hx).mp hlt
      omega
    omega

theorem mantissa_ofMantissaAndAccuracy (m : ℕ) (acc : Accuracy) :
    (ExtendedMantissa.ofMantissaAndAccuracy m acc).mantissa = m := by
  cases acc with
  | exact => rfl
  | inexact side => cases side <;> rfl

/-- Shifting to the spacing and rounding gives the rounded magnitude in units of the spacing. -/
theorem shiftToTargetExponent_rounded {m : ℕ} {e : ℤ} {acc : Accuracy} {x : ℝ} (hx : 0 < x)
    (hloc : Locates (.ofMantissaAndAccuracy m acc) (x / 2 ^ e))
    (he : e ≤ Format.binary64.targetExponent (totalExponent m e)) :
    (shiftToTargetExponent .binary64 m e acc).1.roundedMantissa =
        nearestEven (x / 2 ^ spacing x) ∧
      (shiftToTargetExponent .binary64 m e acc).2 = spacing x := by
  have hlow := hloc.le
  have hhigh := hloc.lt_succ
  rw [mantissa_ofMantissaAndAccuracy] at hlow hhigh
  have htarget := targetExponent_eq_spacing hx hlow hhigh he
  rw [htarget] at he
  obtain ⟨k, hk⟩ := Int.eq_ofNat_of_zero_le (sub_nonneg.mpr he)
  unfold shiftToTargetExponent shiftToExponent
  dsimp only
  rw [htarget, hk]
  refine ⟨?_, by omega⟩
  rw [(hloc.shiftRight _).roundedMantissa_eq, div_div, ← zpow_natCast, ← zpow_add₀ (by norm_num)]
  congr 3
  omega

-- A rounded significand is shifted once more, which does nothing unless rounding made it a power
-- of two.
theorem shiftToTargetExponent_of_lt {r : ℕ} {t : ℤ} (hr : r < 2 ^ 53) (ht : -1074 ≤ t) :
    shiftToTargetExponent .binary64 r t .exact = (⟨r, false, false⟩, t) := by
  have hlog : r.log2 < 53 := by
    rcases Nat.eq_zero_or_pos r with rfl | hpos
    · rw [Nat.log2_zero]
      decide
    · exact (Nat.log2_lt hpos.ne').mpr hr
  have hamount : (Format.binary64.targetExponent (totalExponent r t) - t).toNat = 0 := by
    rw [targetExponent_eq]
    unfold totalExponent
    omega
  unfold shiftToTargetExponent shiftToExponent
  dsimp only
  rw [hamount, Nat.cast_zero, add_zero]
  rfl

theorem shiftToTargetExponent_two_pow {t : ℤ} (ht : -1074 ≤ t) :
    shiftToTargetExponent .binary64 (2 ^ 53) t .exact = (⟨2 ^ 52, false, false⟩, t + 1) := by
  have hamount : (Format.binary64.targetExponent (totalExponent (2 ^ 53) t) - t).toNat = 1 := by
    rw [targetExponent_eq]
    unfold totalExponent
    rw [Nat.log2_two_pow]
    omega
  unfold shiftToTargetExponent shiftToExponent
  dsimp only
  rw [hamount]
  rfl

/-- The parts of a result that is packed into a double of the given value. -/
structure PacksTo (u : UnpackedFloat) (v : EReal) : Prop where
  isNumber : u ≠ .notANumber
  canonical : Canonical u
  value_clip : value (clip u) = v

/-- The number that a shifted significand makes. -/
def assemble (s : Sign) (p : ExtendedMantissa × ℤ) : UnpackedFloat :=
  if h : p.1.mantissa = 0 then .zero s else .finite s p.1.mantissa p.2 (Nat.pos_of_ne_zero h)

theorem packsTo_assemble {s : Sign} {r : ℕ} {t : ℤ}
    (h : r < 2 ^ 53 ∧ -1074 ≤ t ∧ (2 ^ 52 ≤ r ∨ t = -1074)) :
    PacksTo (assemble s (⟨r, false, false⟩, t)) (overflow (signed s (r * 2 ^ t))) := by
  unfold assemble
  by_cases hzero : r = 0
  · have hvalue : signed s ((r : ℝ) * 2 ^ t) = 0 := by
      rw [hzero, Nat.cast_zero, zero_mul]
      cases s
      · exact neg_zero
      · rfl
    rw [dif_pos hzero, hvalue, overflow_of_abs_lt (by rw [abs_zero]; exact limit_pos)]
    exact ⟨UnpackedFloat.noConfusion, trivial, rfl⟩
  · rw [dif_neg hzero]
    exact ⟨UnpackedFloat.noConfusion, h, Canonical.value_clip h⟩

/-- Rounding a significand is rounding the exact number. -/
theorem packsTo_roundWithAccuracy (s : Sign) {m : ℕ} {e : ℤ} {acc : Accuracy} {x : ℝ} (hx : 0 < x)
    (hloc : Locates (.ofMantissaAndAccuracy m acc) (x / 2 ^ e))
    (he : e ≤ Format.binary64.targetExponent (totalExponent m e)) :
    PacksTo (roundWithAccuracy .binary64 s m e acc) (overflow (signed s (roundMagnitude x))) := by
  obtain ⟨hrounded, hexponent⟩ := shiftToTargetExponent_rounded hx hloc he
  have hle : nearestEven (x / 2 ^ spacing x) ≤ 2 ^ 53 :=
    nearestEven_le_natCast (div_spacing_lt x).le
  have hleast : -1074 ≤ spacing x := le_max_right _ _
  have hlead : 2 ^ 52 ≤ nearestEven (x / 2 ^ spacing x) ∨ spacing x = -1074 := by
    rcases hleast.eq_or_lt with heq | hlt
    · exact .inr heq.symm
    · exact .inl (natCast_le_nearestEven (le_div_spacing hx hlt))
  have hassemble : roundWithAccuracy .binary64 s m e acc =
      assemble s (shiftToTargetExponent .binary64
        (shiftToTargetExponent .binary64 m e acc).1.roundedMantissa
        (shiftToTargetExponent .binary64 m e acc).2 .exact) := rfl
  rw [hassemble, hrounded, hexponent]
  unfold roundMagnitude
  rcases hle.lt_or_eq with hlt | heq
  · rw [shiftToTargetExponent_of_lt hlt hleast]
    exact packsTo_assemble ⟨hlt, hleast, hlead⟩
  · -- Rounding carried into a digit more.
    have hvalue : ((2 ^ 53 : ℕ) : ℝ) * 2 ^ spacing x =
        ((2 ^ 52 : ℕ) : ℝ) * 2 ^ (spacing x + 1) := by
      rw [natCast_two_pow_mul_zpow, natCast_two_pow_mul_zpow]
      congr 1
      push_cast
      ring
    rw [heq, shiftToTargetExponent_two_pow hleast, hvalue]
    exact packsTo_assemble ⟨by norm_num, by omega, .inl le_rfl⟩

end CodeQuality.Double
