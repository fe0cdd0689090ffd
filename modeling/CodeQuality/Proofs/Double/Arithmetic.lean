import CodeQuality.Proofs.Double.Significand

/-!
Arithmetic on doubles.

A double that is a number denotes an extended real number. Each operation takes the exact result
of its arguments' numbers and rounds it once, and comparisons compare the numbers. So order and
exactness of computed values are matters of extended real numbers and of `nearest`; the sign of a
zero and what is no number are all that is left over.
-/

namespace CodeQuality.Double

open Float.Model (Format UnpackedFloat totalExponent)
open Float.Model.UnpackedFloat

/-! ## Results of exact significands -/

theorem nearest_signed (s : Sign) {x : ℝ} (hx : 0 ≤ x) :
    nearest (signed s x) = overflow (signed s (roundMagnitude x)) := by
  rw [nearest_coe]
  cases s with
  | negative => rw [signed_neg, signed_neg, roundReal_neg_of_nonneg hx]
  | positive => rw [signed_pos, signed_pos, roundReal_of_nonneg hx]

theorem natCast_shiftLeft_mul_zpow (m k : ℕ) (e : ℤ) :
    ((m <<< k : ℕ) : ℝ) * 2 ^ (e - k) = m * 2 ^ e := by
  rw [Nat.shiftLeft_eq, Nat.cast_mul, mul_assoc, natCast_two_pow_mul_zpow, sub_add_cancel]

theorem totalExponent_shiftLeft {m : ℕ} (hm : 0 < m) (k : ℕ) (e : ℤ) :
    totalExponent (m <<< k) (e - k) = totalExponent m e := by
  have hlog : (m <<< k).log2 = m.log2 + k := by
    rw [Nat.shiftLeft_eq, Nat.log2_eq_iff (by positivity), pow_succ, pow_add, mul_right_comm]
    exact ⟨Nat.mul_le_mul_right _ (Nat.log2_self_le hm.ne'),
      Nat.mul_lt_mul_of_pos_right (pow_succ 2 m.log2 ▸ Nat.lt_log2_self) (by positivity)⟩
  unfold totalExponent
  rw [hlog]
  push_cast
  ring

theorem packsTo_round (s : Sign) {m : ℕ} (hm : 0 < m) (e : ℤ) :
    PacksTo (round .binary64 s m e) (nearest (signed s (m * 2 ^ e))) := by
  have hx := mul_zpow_pos hm e
  have hround : round .binary64 s m e = roundWithAccuracy .binary64 s
      (m <<< (e - Format.binary64.targetExponent (totalExponent m e)).toNat)
      (e - (e - Format.binary64.targetExponent (totalExponent m e)).toNat) .exact := rfl
  rw [hround, nearest_signed s hx.le]
  -- The significand is first widened as far as its spacing asks for, which loses nothing.
  generalize hk : (e - Format.binary64.targetExponent (totalExponent m e)).toNat = k
  apply packsTo_roundWithAccuracy s hx
  · rw [← natCast_shiftLeft_mul_zpow m k e, mul_div_cancel_right₀ _ (two_zpow_pos _).ne']
    exact .whole _
  · rw [totalExponent_shiftLeft hm]
    omega

theorem packsTo_zero (s : Sign) : PacksTo (.zero s) 0 :=
  ⟨UnpackedFloat.noConfusion, trivial, rfl⟩

theorem packsTo_normalize (n : ℤ) (e : ℤ) (z : Sign) :
    PacksTo (UnpackedFloat.normalize .binary64 n e z) (nearest ((n * 2 ^ e : ℝ))) := by
  unfold UnpackedFloat.normalize
  rcases lt_trichotomy n 0 with hn | rfl | hn
  · obtain ⟨m, rfl⟩ : ∃ m : ℕ, n = -m := ⟨n.natAbs, by omega⟩
    have hvalue : ((-(m : ℤ) : ℤ) : ℝ) * 2 ^ e = signed .negative (m * 2 ^ e) := by
      rw [signed_neg]
      push_cast
      ring
    rw [compare_lt_iff_lt.mpr hn, hvalue]
    simpa using packsTo_round .negative (by omega : 0 < m) e
  · rw [Int.cast_zero, zero_mul, EReal.coe_zero, nearest_zero]
    exact packsTo_zero z
  · obtain ⟨m, rfl⟩ : ∃ m : ℕ, n = m := ⟨n.toNat, by omega⟩
    rw [compare_gt_iff_gt.mpr hn, Int.cast_natCast, ← signed_pos ((m : ℝ) * 2 ^ e)]
    exact packsTo_round .positive (by omega : 0 < m) e

/-! ## Operations on parts -/

/-- The parts of a double that is a number. -/
structure IsNumber (u : UnpackedFloat) : Prop where
  ne_notANumber : u ≠ .notANumber
  canonical : Canonical u
  inRange : InRange u

namespace IsNumber

theorem clip_eq {u : UnpackedFloat} (h : IsNumber u) : clip u = u := by
  cases u with
  | finite s m e hm => exact if_neg (not_lt.mpr h.inRange)
  | _ => rfl

theorem packsTo {u : UnpackedFloat} (h : IsNumber u) : PacksTo u (value u) :=
  ⟨h.ne_notANumber, h.canonical, congrArg value h.clip_eq⟩

theorem isMagnitude {s : Sign} {m : ℕ} {e : ℤ} {hm : 0 < m} (h : IsNumber (.finite s m e hm)) :
    IsMagnitude (m * 2 ^ e) := by
  obtain ⟨hdigits, hleast, -⟩ := h.canonical
  refine ⟨⟨m, e, hdigits, hleast, rfl⟩, ?_⟩
  have hrange : e ≤ 971 := h.inRange
  calc (m : ℝ) * 2 ^ e < 2 ^ (e + 53) := mul_zpow_lt hdigits e
    _ ≤ limit := two_zpow_mono (by omega)

/-- A double is its own nearest double. -/
theorem nearest_value {u : UnpackedFloat} (h : IsNumber u) : nearest (value u) = value u := by
  cases u with
  | notANumber => exact nearest_zero
  | infinity s => cases s <;> rfl
  | zero s => exact nearest_zero
  | finite s m e hm =>
    cases s with
    | negative => exact h.isMagnitude.nearest_neg_eq
    | positive => exact h.isMagnitude.nearest_eq

theorem eq_zero {u : UnpackedFloat} (h : IsNumber u) (hvalue : value u = 0) : ∃ s, u = .zero s := by
  cases u with
  | notANumber => exact absurd rfl h.ne_notANumber
  | infinity s => cases s <;> simp [value] at hvalue
  | zero s => exact ⟨s, rfl⟩
  | finite s m e hm =>
    have hx := mul_zpow_pos hm e
    cases s with
    | negative => exact absurd (EReal.coe_eq_zero.mp hvalue) (neg_lt_zero.mpr hx).ne
    | positive => exact absurd (EReal.coe_eq_zero.mp hvalue) hx.ne'

theorem eq_infinity {u : UnpackedFloat} (h : IsNumber u) (hvalue : value u = ⊤ ∨ value u = ⊥) :
    ∃ s, u = .infinity s := by
  cases u with
  | notANumber => exact absurd rfl h.ne_notANumber
  | infinity s => exact ⟨s, rfl⟩
  | zero s => simp [value] at hvalue
  | finite s m e hm => simp [value] at hvalue

theorem neg {u : UnpackedFloat} (h : IsNumber u) : IsNumber u.neg := by
  rcases h with ⟨hn, hc, hr⟩
  cases u with
  | notANumber => exact absurd rfl hn
  | infinity s => exact ⟨UnpackedFloat.noConfusion, trivial, trivial⟩
  | zero s => exact ⟨UnpackedFloat.noConfusion, trivial, trivial⟩
  | finite s m e hm => exact ⟨UnpackedFloat.noConfusion, hc, hr⟩

theorem abs {u : UnpackedFloat} (h : IsNumber u) : IsNumber u.abs := by
  rcases h with ⟨hn, hc, hr⟩
  cases u with
  | notANumber => exact absurd rfl hn
  | infinity s => exact ⟨UnpackedFloat.noConfusion, trivial, trivial⟩
  | zero s => exact ⟨UnpackedFloat.noConfusion, trivial, trivial⟩
  | finite s m e hm => exact ⟨UnpackedFloat.noConfusion, hc, hr⟩

end IsNumber

theorem value_neg (u : UnpackedFloat) : value u.neg = -value u := by
  cases u with
  | notANumber => exact neg_zero.symm
  | infinity s => cases s <;> rfl
  | zero s => exact neg_zero.symm
  | finite s m e hm =>
    cases s with
    | negative => exact congrArg Real.toEReal (neg_neg ((m : ℝ) * 2 ^ e)).symm
    | positive => rfl

theorem value_abs {u : UnpackedFloat} {r : ℝ} (h : value u = r) :
    value u.abs = ((|r| : ℝ) : EReal) := by
  have hzero (hr : (0 : EReal) = r) : (0 : EReal) = ((|r| : ℝ) : EReal) := by
    rw [EReal.coe_eq_zero.mp hr.symm, abs_zero, EReal.coe_zero]
  cases u with
  | notANumber => exact hzero h
  | infinity s => cases s <;> simp [value] at h
  | zero s => exact hzero h
  | finite s m e hm =>
    have hx := mul_zpow_pos hm e
    have hr : r = signed s (m * 2 ^ e) := (EReal.coe_injective h).symm
    cases s with
    | negative =>
      rw [hr, signed_neg, abs_neg, abs_of_pos hx]
      rfl
    | positive =>
      rw [hr, signed_pos, abs_of_pos hx]
      rfl

/-- Two infinities of different signs, which have no sum. -/
def Cancels (u v : EReal) : Prop := u = ⊤ ∧ v = ⊥ ∨ u = ⊥ ∧ v = ⊤

theorem not_cancels_of_coe_left (r : ℝ) (v : EReal) : ¬ Cancels r v := by
  rintro (⟨h, -⟩ | ⟨h, -⟩)
  · exact EReal.coe_ne_top r h
  · exact EReal.coe_ne_bot r h

theorem not_cancels_of_coe_right (u : EReal) (r : ℝ) : ¬ Cancels u r := by
  rintro (⟨-, h⟩ | ⟨-, h⟩)
  · exact EReal.coe_ne_bot r h
  · exact EReal.coe_ne_top r h

theorem not_cancels_of_nonneg {u v : EReal} (hu : 0 ≤ u) (hv : 0 ≤ v) : ¬ Cancels u v := by
  rintro (⟨-, rfl⟩ | ⟨rfl, -⟩)
  · exact absurd hv (by simp)
  · exact absurd hu (by simp)

theorem signed_decreaseExponent (s : Sign) (m : ℕ) {e t : ℤ} (h : t ≤ e) :
    ((s.apply (decreaseExponent m e t).1 : ℤ) : ℝ) * 2 ^ t = signed s (m * 2 ^ e) := by
  obtain ⟨k, hk⟩ := Int.eq_ofNat_of_zero_le (sub_nonneg.mpr h)
  have hshift : (decreaseExponent m e t).1 = m <<< k := by
    unfold decreaseExponent
    rw [hk]
    rfl
  rw [hshift, ← natCast_shiftLeft_mul_zpow m k e, show e - k = t by omega]
  cases s with
  | negative =>
    rw [signed_neg, ← neg_mul]
    congr 1
    exact Int.cast_neg _
  | positive => rfl

theorem packsTo_infinity (s : Sign) : PacksTo (.infinity s) (value (.infinity s)) :=
  ⟨UnpackedFloat.noConfusion, trivial, rfl⟩

theorem packsTo_add {u v : UnpackedFloat} (hu : IsNumber u) (hv : IsNumber v)
    (h : ¬ Cancels (value u) (value v)) :
    PacksTo (add .binary64 u v) (nearest (value u + value v)) := by
  cases u with
  | notANumber => exact absurd rfl hu.ne_notANumber
  | infinity s =>
    cases v with
    | notANumber => exact absurd rfl hv.ne_notANumber
    | infinity t =>
      cases s <;> cases t
      · exact packsTo_infinity .negative
      · exact absurd (.inr ⟨rfl, rfl⟩) h
      · exact absurd (.inl ⟨rfl, rfl⟩) h
      · exact packsTo_infinity .positive
    | zero t => cases s <;> exact packsTo_infinity _
    | finite t m e hm => cases s <;> exact packsTo_infinity _
  | zero s =>
    have hzero : value (.zero s) = 0 := rfl
    rw [hzero, zero_add, hv.nearest_value]
    cases v with
    | notANumber => exact absurd rfl hv.ne_notANumber
    | infinity t => exact hv.packsTo
    | zero t => cases s <;> cases t <;> exact packsTo_zero _
    | finite t m e hm => exact hv.packsTo
  | finite s m e hm =>
    cases v with
    | notANumber => exact absurd rfl hv.ne_notANumber
    | infinity t => cases t <;> exact packsTo_infinity _
    | zero t =>
      have hzero : value (.zero t) = 0 := rfl
      rw [hzero, add_zero, hu.nearest_value]
      exact hu.packsTo
    | finite t n f hn =>
      -- Both significands are brought to the lower exponent and added as whole numbers.
      have hsum : value (.finite s m e hm) + value (.finite t n f hn) =
          (((s.apply (decreaseExponent m e (min e f)).1 + t.apply (decreaseExponent n f (min e f)).1
            : ℤ) : ℝ) * 2 ^ min e f : ℝ) := by
        rw [Int.cast_add, add_mul, signed_decreaseExponent s m (min_le_left e f),
          signed_decreaseExponent t n (min_le_right e f)]
        rfl
      rw [hsum]
      exact packsTo_normalize _ _ _

theorem sub_eq_add_opposite (u v : UnpackedFloat) : sub .binary64 u v = add .binary64 u v.neg := by
  cases u with
  | notANumber => cases v <;> rfl
  | infinity s => cases v <;> rfl
  | zero s => cases v <;> rfl
  | finite s m e hm =>
    cases v with
    | finite t n f hn =>
      show UnpackedFloat.normalize _ (s.apply _ - t.apply (decreaseExponent n f (min e f)).1) _ _ =
        UnpackedFloat.normalize _ (s.apply _ + (-t).apply (decreaseExponent n f (min e f)).1) _ _
      congr 1
      cases t with
      | negative => exact sub_neg_eq_add _ _
      | positive => exact sub_eq_add_neg _ _
    | _ => rfl

theorem packsTo_sub {u v : UnpackedFloat} (hu : IsNumber u) (hv : IsNumber v)
    (h : ¬ Cancels (value u) (-value v)) :
    PacksTo (sub .binary64 u v) (nearest (value u - value v)) := by
  rw [sub_eq_add_opposite, sub_eq_add_neg, ← value_neg]
  exact packsTo_add hu hv.neg (by rwa [value_neg])

/-- A zero and an infinity, which have no product. -/
def Annihilates (u v : EReal) : Prop := u = 0 ∧ (v = ⊤ ∨ v = ⊥) ∨ (u = ⊤ ∨ u = ⊥) ∧ v = 0

theorem not_annihilates_of_nonneg {w : EReal} {k : ℝ} (hw : 0 ≤ w) (h : ¬ (w = ⊤ ∧ k = 0)) :
    ¬ Annihilates w k := by
  rintro (⟨-, htop | hbot⟩ | ⟨htop | hbot, hzero⟩)
  · exact EReal.coe_ne_top _ htop
  · exact EReal.coe_ne_bot _ hbot
  · exact h ⟨htop, EReal.coe_eq_zero.mp hzero⟩
  · exact absurd hw (by rw [hbot]; simp)

theorem mul_exponent_le {s t : Sign} {m n : ℕ} {e f : ℤ} {hm : 0 < m} {hn : 0 < n}
    (hu : Canonical (.finite s m e hm)) (hv : Canonical (.finite t n f hn)) :
    e + f ≤ Format.binary64.targetExponent (totalExponent (m * n) (e + f)) := by
  rcases hu with ⟨-, -, hlead⟩
  rcases hv with ⟨-, -, hlead'⟩
  rw [targetExponent_eq]
  unfold totalExponent
  by_cases hdigits : 2 ^ 52 ≤ m * n
  · have := (Nat.le_log2 (Nat.mul_pos hm hn).ne').mpr hdigits
    omega
  · -- Short significands have the least exponent.
    have hm' : m ≤ m * n := Nat.le_mul_of_pos_right m hn
    have hn' : n ≤ m * n := Nat.le_mul_of_pos_left n hm
    omega

theorem signed_mul (s t : Sign) (x y : ℝ) : signed s x * signed t y = signed (s * t) (x * y) := by
  cases s <;> cases t
  · exact neg_mul_neg x y
  · exact neg_mul x y
  · exact mul_neg x y
  · rfl

theorem infinity_mul_finite (s t : Sign) {m : ℕ} {e : ℤ} (hm : 0 < m) :
    value (.infinity s) * value (.finite t m e hm) = value (.infinity (s * t)) := by
  have hx := mul_zpow_pos hm e
  cases s <;> cases t
  · exact EReal.bot_mul_coe_of_neg (neg_lt_zero.mpr hx)
  · exact EReal.bot_mul_coe_of_pos hx
  · exact EReal.top_mul_coe_of_neg (neg_lt_zero.mpr hx)
  · exact EReal.top_mul_coe_of_pos hx

theorem packsTo_mul {u v : UnpackedFloat} (hu : IsNumber u) (hv : IsNumber v)
    (h : ¬ Annihilates (value u) (value v)) :
    PacksTo (mul .binary64 u v) (nearest (value u * value v)) := by
  cases u with
  | notANumber => exact absurd rfl hu.ne_notANumber
  | infinity s =>
    cases v with
    | notANumber => exact absurd rfl hv.ne_notANumber
    | infinity t => cases s <;> cases t <;> exact packsTo_infinity _
    | zero t => cases s <;> exact absurd (.inr ⟨by simp [value], rfl⟩) h
    | finite t m e hm =>
      rw [infinity_mul_finite]
      cases s <;> cases t <;> exact packsTo_infinity _
  | zero s =>
    cases v with
    | notANumber => exact absurd rfl hv.ne_notANumber
    | infinity t => cases t <;> exact absurd (.inl ⟨rfl, by simp [value]⟩) h
    | zero t =>
      rw [show value (.zero s) = 0 from rfl, zero_mul, nearest_zero]
      exact packsTo_zero (s * t)
    | finite t m e hm =>
      rw [show value (.zero s) = 0 from rfl, zero_mul, nearest_zero]
      exact packsTo_zero (s * t)
  | finite s m e hm =>
    cases v with
    | notANumber => exact absurd rfl hv.ne_notANumber
    | infinity t =>
      rw [mul_comm, infinity_mul_finite]
      cases s <;> cases t <;> exact packsTo_infinity _
    | zero t =>
      rw [show value (.zero t) = 0 from rfl, mul_zero, nearest_zero]
      exact packsTo_zero (s * t)
    | finite t n f hn =>
      have hx := mul_zpow_pos (Nat.mul_pos hm hn) (e + f)
      have hprod : value (.finite s m e hm) * value (.finite t n f hn) =
          (signed (s * t) ((m * n : ℕ) * 2 ^ (e + f)) : ℝ) := by
        show ((signed s (m * 2 ^ e) : ℝ) : EReal) * (signed t (n * 2 ^ f) : ℝ) = _
        rw [← EReal.coe_mul, signed_mul, zpow_add₀ (by norm_num)]
        push_cast
        ring_nf
      rw [hprod, nearest_signed _ hx.le]
      apply packsTo_roundWithAccuracy _ hx
      · rw [mul_div_cancel_right₀ _ (two_zpow_pos _).ne']
        exact .whole _
      · exact mul_exponent_le hu.canonical hv.canonical

theorem log2_mono_of_pos {m n : ℕ} (hm : 0 < m) (h : m ≤ n) : m.log2 ≤ n.log2 :=
  (Nat.le_log2 (by omega)).mpr ((Nat.log2_self_le hm.ne').trans h)

theorem log2_le_log2_div {m d : ℕ} (hd : 0 < d) (h : d ≤ m) :
    m.log2 ≤ (m / d).log2 + d.log2 + 1 := by
  have hm : m < 2 ^ ((m / d).log2 + d.log2 + 2) := by
    calc m < d * (m / d + 1) := Nat.lt_mul_div_succ m hd
      _ ≤ 2 ^ (d.log2 + 1) * 2 ^ ((m / d).log2 + 1) :=
        Nat.mul_le_mul Nat.lt_log2_self.le Nat.lt_log2_self
      _ = 2 ^ ((m / d).log2 + d.log2 + 2) := by rw [← pow_add]; congr 1; omega
  have := (Nat.log2_lt (by omega : m ≠ 0)).mpr hm
  omega

/-- The quotient of significands has all the digits that rounding needs. -/
theorem div_exponent_le {m d : ℕ} (hm : 0 < m) (hd : 0 < d) {e f : ℤ} {k : ℕ}
    (h : e - f - k ≤ Format.binary64.targetExponent (totalExponent m e - totalExponent d f)) :
    e - f - k ≤ Format.binary64.targetExponent (totalExponent ((m <<< k) / d) (e - f - k)) := by
  have hlog := totalExponent_shiftLeft hm k e
  rw [targetExponent_eq] at h ⊢
  unfold totalExponent at h hlog ⊢
  by_cases hle : d ≤ m <<< k
  · have := log2_le_log2_div hd hle
    omega
  · have hlt : m <<< k < d := not_le.mp hle
    have hpos : 0 < m <<< k := by
      rw [Nat.shiftLeft_eq]
      positivity
    have := log2_mono_of_pos hpos hlt.le
    rw [Nat.div_eq_of_lt hlt, Nat.log2_zero]
    omega

theorem signed_div (s t : Sign) (x y : ℝ) : signed s x / signed t y = signed (s / t) (x / y) := by
  cases s <;> cases t
  · exact neg_div_neg_eq x y
  · exact neg_div y x
  · exact div_neg x
  · rfl

theorem infinity_div_finite (s t : Sign) {m : ℕ} {e : ℤ} (hm : 0 < m) :
    value (.infinity s) / value (.finite t m e hm) = value (.infinity (s / t)) := by
  have hx := mul_zpow_pos hm e
  cases s <;> cases t
  · exact EReal.bot_div_of_neg_ne_bot (EReal.coe_neg'.mpr (neg_lt_zero.mpr hx)) (EReal.coe_ne_bot _)
  · exact EReal.bot_div_of_pos_ne_top (EReal.coe_pos.mpr hx) (EReal.coe_ne_top _)
  · exact EReal.top_div_of_neg_ne_bot (EReal.coe_neg'.mpr (neg_lt_zero.mpr hx)) (EReal.coe_ne_bot _)
  · exact EReal.top_div_of_pos_ne_top (EReal.coe_pos.mpr hx) (EReal.coe_ne_top _)

/-- The shift of a dividend, by which its quotient gets all the digits that are rounded. -/
def divShift (m : ℕ) (e : ℤ) (d : ℕ) (f : ℤ) : ℕ :=
  (e - f - min (e - f) (Format.binary64.targetExponent
    (totalExponent m e - totalExponent d f))).toNat

theorem div_eq_round (s t : Sign) {m d : ℕ} {e f : ℤ} (hm : 0 < m) (hd : 0 < d) :
    div .binary64 (.finite s m e hm) (.finite t d f hd) =
      roundWithAccuracy .binary64 (s / t) ((m <<< divShift m e d f) / d)
        (e - f - divShift m e d f) (accuracyOfFraction ((m <<< divShift m e d f) % d) d) := by
  have hexponent : min (e - f) (Format.binary64.targetExponent
      (totalExponent m e - totalExponent d f)) = e - f - divShift m e d f := by
    unfold divShift
    omega
  have hcore : divCore .binary64 m e d f = ((m <<< divShift m e d f) / d,
      e - f - divShift m e d f, accuracyOfFraction ((m <<< divShift m e d f) % d) d) := by
    unfold divCore
    dsimp only
    rw [hexponent,
      show (e - f - (e - f - (divShift m e d f : ℤ))).toNat = divShift m e d f by omega]
  show roundWithAccuracy .binary64 (s / t) (divCore .binary64 m e d f).1
    (divCore .binary64 m e d f).2.1 (divCore .binary64 m e d f).2.2 = _
  rw [hcore]

theorem locates_quotient (m : ℕ) {d : ℕ} (hd : 0 < d) (e : ℤ) (k : ℕ) :
    Locates (.ofMantissaAndAccuracy ((m <<< k) / d) (accuracyOfFraction ((m <<< k) % d) d))
      ((m / d * 2 ^ e : ℝ) / 2 ^ (e - k)) := by
  have hd' : (d : ℝ) ≠ 0 := Nat.cast_ne_zero.mpr hd.ne'
  have hdivision : ((m <<< k : ℕ) : ℝ) = d * ((m <<< k) / d : ℕ) + ((m <<< k) % d : ℕ) := by
    exact_mod_cast (Nat.div_add_mod (m <<< k) d).symm
  have hquotient : (m / d * 2 ^ e : ℝ) / 2 ^ (e - k) =
      ((m <<< k) / d : ℕ) + ((m <<< k) % d : ℕ) / d := by
    rw [div_eq_iff (two_zpow_pos (e - k)).ne', ← mul_right_inj' hd', ← mul_assoc, ← mul_assoc,
      mul_add, mul_div_cancel₀ _ hd', mul_div_cancel₀ _ hd', ← hdivision,
      natCast_shiftLeft_mul_zpow]
  rw [hquotient]
  exact locates_fraction _ (Nat.mod_lt _ hd)

/-- Quotients are only needed of finite divisors that are not zero. -/
theorem packsTo_div {u v : UnpackedFloat} (hu : IsNumber u) (hv : IsNumber v) (hzero : value v ≠ 0)
    (htop : value v ≠ ⊤) (hbot : value v ≠ ⊥) :
    PacksTo (div .binary64 u v) (nearest (value u / value v)) := by
  cases v with
  | notANumber => exact absurd rfl hv.ne_notANumber
  | infinity t => cases t <;> simp [value] at htop hbot
  | zero t => exact absurd rfl hzero
  | finite t d f hd =>
    cases u with
    | notANumber => exact absurd rfl hu.ne_notANumber
    | infinity s =>
      rw [infinity_div_finite]
      cases s <;> cases t <;> exact packsTo_infinity _
    | zero s =>
      rw [show value (.zero s) = 0 from rfl, EReal.zero_div, nearest_zero]
      exact packsTo_zero (s / t)
    | finite s m e hm =>
      have hm' : (0 : ℝ) < m := by exact_mod_cast hm
      have hd' : (0 : ℝ) < d := by exact_mod_cast hd
      have hx : (0 : ℝ) < m / d * 2 ^ (e - f) := mul_pos (div_pos hm' hd') (two_zpow_pos _)
      have hquot : value (.finite s m e hm) / value (.finite t d f hd) =
          (signed (s / t) (m / d * 2 ^ (e - f)) : ℝ) := by
        show ((signed s (m * 2 ^ e) : ℝ) : EReal) / (signed t (d * 2 ^ f) : ℝ) = _
        rw [← EReal.coe_div, signed_div, zpow_sub₀ (by norm_num), mul_div_mul_comm]
      rw [hquot, nearest_signed _ hx.le, div_eq_round]
      apply packsTo_roundWithAccuracy _ hx
      · exact locates_quotient m hd (e - f) _
      · apply div_exponent_le hm hd
        unfold divShift
        omega

/-! ## Comparisons -/

theorem lt_of_exponent_lt {m n : ℕ} {e f : ℤ} (hdigits : m < 2 ^ 53) (hlead : 2 ^ 52 ≤ n)
    (h : e < f) : (m : ℝ) * 2 ^ e < n * 2 ^ f := by
  calc (m : ℝ) * 2 ^ e < 2 ^ (e + 53) := mul_zpow_lt hdigits e
    _ ≤ 2 ^ (f + 52) := two_zpow_mono (by omega)
    _ ≤ n * 2 ^ f := zpow_le_mul_zpow hlead f

theorem compare_parts {s t : Sign} {m n : ℕ} {e f : ℤ} {hm : 0 < m} {hn : 0 < n}
    (hu : Canonical (.finite s m e hm)) (hv : Canonical (.finite t n f hn)) :
    (compare e f).then (compare m n) = cmp ((m : ℝ) * 2 ^ e) (n * 2 ^ f) := by
  rcases hu with ⟨hdigits, hleast, hlead⟩
  rcases hv with ⟨hdigits', hleast', hlead'⟩
  -- A greater exponent outweighs every significand of 53 digits, since the greater number has
  -- its leading digit.
  rcases lt_trichotomy e f with hlt | rfl | hgt
  · rw [compare_lt_iff_lt.mpr hlt]
    symm
    exact cmp_eq_lt_iff .. |>.mpr (lt_of_exponent_lt hdigits (by omega) hlt)
  · rw [compare_eq_iff_eq.mpr rfl, cmp_mul_pos_right (two_zpow_pos e)]
    rcases lt_trichotomy m n with hlt | rfl | hgt
    · rw [compare_lt_iff_lt.mpr hlt, (cmp_eq_lt_iff ..).mpr (Nat.cast_lt.mpr hlt)]
      rfl
    · rw [compare_eq_iff_eq.mpr rfl, cmp_self_eq_eq]
      rfl
    · rw [compare_gt_iff_gt.mpr hgt, (cmp_eq_gt_iff ..).mpr (Nat.cast_lt.mpr hgt)]
      rfl
  · rw [compare_gt_iff_gt.mpr hgt]
    symm
    exact cmp_eq_gt_iff .. |>.mpr (lt_of_exponent_lt hdigits' (by omega) hgt)

theorem some_lt_eq_cmp {p q : EReal} (h : p < q) : some Ordering.lt = some (cmp p q) := by
  rw [(cmp_eq_lt_iff ..).mpr h]

theorem some_gt_eq_cmp {p q : EReal} (h : q < p) : some Ordering.gt = some (cmp p q) := by
  rw [(cmp_eq_gt_iff ..).mpr h]

theorem some_eq_eq_cmp (p : EReal) : some Ordering.eq = some (cmp p p) := by
  rw [cmp_self_eq_eq]

theorem compare_finite_eq_cmp {s t : Sign} {m n : ℕ} {e f : ℤ} {hm : 0 < m} {hn : 0 < n}
    (hu : Canonical (.finite s m e hm)) (hv : Canonical (.finite t n f hn)) :
    UnpackedFloat.compare (.finite s m e hm) (.finite t n f hn) =
      some (cmp (value (.finite s m e hm)) (value (.finite t n f hn))) := by
  have hm' := mul_zpow_pos hm e
  have hn' := mul_zpow_pos hn f
  have hparts := compare_parts hu hv
  cases s <;> cases t
  · -- Among negative numbers the order of magnitudes is the other way round.
    show some ((compare e f).then (compare m n)).swap =
      some (cmp ((-(m * 2 ^ e) : ℝ) : EReal) (-(n * 2 ^ f) : ℝ))
    rw [hparts, cmp_swap, EReal.coe_strictMono.cmp_map_eq]
    exact congrArg some (StrictAnti.cmp_map_eq (fun _ _ h => neg_lt_neg h) _ _).symm
  · exact some_lt_eq_cmp (EReal.coe_lt_coe_iff.mpr (by simp only [signed]; linarith))
  · exact some_gt_eq_cmp (EReal.coe_lt_coe_iff.mpr (by simp only [signed]; linarith))
  · show some ((compare e f).then (compare m n)) =
      some (cmp ((m * 2 ^ e : ℝ) : EReal) (n * 2 ^ f : ℝ))
    rw [hparts, EReal.coe_strictMono.cmp_map_eq]

/-- The order of doubles is the order of their numbers. -/
theorem compare_eq_cmp {u v : UnpackedFloat} (hu : IsNumber u) (hv : IsNumber v) :
    UnpackedFloat.compare u v = some (cmp (value u) (value v)) := by
  cases u with
  | notANumber => exact absurd rfl hu.ne_notANumber
  | infinity s =>
    cases v with
    | notANumber => exact absurd rfl hv.ne_notANumber
    | infinity t =>
      cases s <;> cases t
      · exact some_eq_eq_cmp _
      · exact some_lt_eq_cmp bot_lt_top
      · exact some_gt_eq_cmp bot_lt_top
      · exact some_eq_eq_cmp _
    | zero t =>
      cases s
      · exact some_lt_eq_cmp EReal.bot_lt_zero
      · exact some_gt_eq_cmp EReal.zero_lt_top
    | finite t n f hn =>
      cases s
      · exact some_lt_eq_cmp (EReal.bot_lt_coe _)
      · exact some_gt_eq_cmp (EReal.coe_lt_top _)
  | zero s =>
    cases v with
    | notANumber => exact absurd rfl hv.ne_notANumber
    | infinity t =>
      cases t
      · exact some_gt_eq_cmp EReal.bot_lt_zero
      · exact some_lt_eq_cmp EReal.zero_lt_top
    | zero t => exact some_eq_eq_cmp _
    | finite t n f hn =>
      cases t
      · exact some_gt_eq_cmp (EReal.coe_neg'.mpr (neg_lt_zero.mpr (mul_zpow_pos hn f)))
      · exact some_lt_eq_cmp (EReal.coe_pos.mpr (mul_zpow_pos hn f))
  | finite s m e hm =>
    cases v with
    | notANumber => exact absurd rfl hv.ne_notANumber
    | infinity t =>
      cases t
      · exact some_gt_eq_cmp (EReal.bot_lt_coe _)
      · exact some_lt_eq_cmp (EReal.coe_lt_top _)
    | zero t =>
      cases s
      · exact some_lt_eq_cmp (EReal.coe_neg'.mpr (neg_lt_zero.mpr (mul_zpow_pos hm e)))
      · exact some_gt_eq_cmp (EReal.coe_pos.mpr (mul_zpow_pos hm e))
    | finite t n f hn => exact compare_finite_eq_cmp hu.canonical hv.canonical

/-- Canonical forms differ unless they are the two zeros. -/
theorem eq_of_value_eq {u v : UnpackedFloat} (hu : IsNumber u) (hv : IsNumber v)
    (h : value u = value v) (hzero : value u ≠ 0) : u = v := by
  have hcompare : UnpackedFloat.compare u v = some .eq := by
    rw [compare_eq_cmp hu hv, (cmp_eq_eq_iff ..).mpr h]
  cases u with
  | notANumber => exact absurd rfl hu.ne_notANumber
  | infinity s =>
    obtain ⟨t, rfl⟩ := hv.eq_infinity (by rw [← h]; cases s <;> simp [value])
    cases s <;> cases t <;> first | rfl | exact absurd h (by simp [value])
  | zero s => exact absurd rfl hzero
  | finite s m e hm =>
    cases v with
    | notANumber => exact absurd rfl hv.ne_notANumber
    | infinity t => cases t <;> simp [value] at h
    | zero t => exact absurd h hzero
    | finite t n f hn =>
      have hparts : s = t ∧ compare e f = .eq ∧ compare m n = .eq := by
        cases s <;> cases t
        · exact ⟨rfl, by simpa [UnpackedFloat.compare] using hcompare⟩
        · exact absurd hcompare (by simp [UnpackedFloat.compare])
        · exact absurd hcompare (by simp [UnpackedFloat.compare])
        · exact ⟨rfl, by simpa [UnpackedFloat.compare] using hcompare⟩
      rcases hparts with ⟨rfl, he, hmn⟩
      obtain rfl := compare_eq_iff_eq.mp he
      obtain rfl := compare_eq_iff_eq.mp hmn
      rfl

end CodeQuality.Double
