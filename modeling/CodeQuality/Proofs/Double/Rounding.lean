import Mathlib

/-!
Rounding to the nearest double, on the extended reals.

Around a number of magnitude `x` the doubles lie `2 ^ spacing x` apart, so rounding is rounding to
a whole number in units of that distance. Whatever comes out at `2 ^ 1024` or beyond is infinite.
The main facts are that rounding is monotone and that it keeps every number that a double can
hold; all that is said about the order of computed values rests on these two. At the end stands
which number an unpacked double is, before any rounding.
-/

namespace CodeQuality.Double

open Float.Model (UnpackedFloat)
open Float.Model.UnpackedFloat

-- With this the literal 2 of real numbers is the same term in every module.
instance atLeastTwo_two : Nat.AtLeastTwo 2 := ⟨le_rfl⟩

/-! ## The nearest whole number, halves going to the even neighbour -/

/-- The whole number nearest to a number from zero on, a half going to the even neighbour. -/
noncomputable def nearestEven (q : ℝ) : ℕ :=
  if q - ⌊q⌋₊ < 1 / 2 then ⌊q⌋₊
  else if q - ⌊q⌋₊ = 1 / 2 then ⌊q⌋₊ + ⌊q⌋₊ % 2
  else ⌊q⌋₊ + 1

theorem floor_le_nearestEven (q : ℝ) : ⌊q⌋₊ ≤ nearestEven q := by
  unfold nearestEven
  split_ifs <;> omega

theorem nearestEven_le_floor_succ (q : ℝ) : nearestEven q ≤ ⌊q⌋₊ + 1 := by
  have hparity : ⌊q⌋₊ % 2 < 2 := Nat.mod_lt _ (by decide)
  unfold nearestEven
  split_ifs <;> omega

theorem nearestEven_natCast (n : ℕ) : nearestEven n = n := by
  unfold nearestEven
  rw [Nat.floor_natCast, sub_self, if_pos (by norm_num)]

theorem nearestEven_zero : nearestEven 0 = 0 := by
  simpa using nearestEven_natCast 0

theorem nearestEven_mono {p q : ℝ} (h : p ≤ q) : nearestEven p ≤ nearestEven q := by
  have hfloor : ⌊p⌋₊ ≤ ⌊q⌋₊ := Nat.floor_mono h
  rcases hfloor.lt_or_eq with hlt | heq
  · have hp := nearestEven_le_floor_succ p
    have hq := floor_le_nearestEven q
    omega
  · -- With a common floor the distances from it decide.
    have hparity : ⌊q⌋₊ % 2 < 2 := Nat.mod_lt _ (by decide)
    unfold nearestEven
    rw [heq]
    by_cases hlow : q - ⌊q⌋₊ < 1 / 2
    · rw [if_pos hlow, if_pos (by linarith)]
    rw [if_neg hlow]
    by_cases hhalf : q - ⌊q⌋₊ = 1 / 2
    · rw [if_pos hhalf]
      split_ifs with h₁ h₂
      · omega
      · omega
      · exact absurd (le_antisymm (by linarith) (not_lt.mp h₁)) h₂
    · rw [if_neg hhalf]
      split_ifs <;> omega

theorem nearestEven_le_natCast {q : ℝ} {n : ℕ} (h : q ≤ n) : nearestEven q ≤ n := by
  rw [← nearestEven_natCast n]
  exact nearestEven_mono h

theorem natCast_le_nearestEven {q : ℝ} {n : ℕ} (h : (n : ℝ) ≤ q) : n ≤ nearestEven q := by
  rw [← nearestEven_natCast n]
  exact nearestEven_mono h

/-! ## The nearest whole number, halves going up -/

/-- The whole number nearest to a number from zero on, a half going up. -/
noncomputable def toWhole : EReal → EReal
  | ⊥ => ⊥
  | ⊤ => ⊤
  | (r : ℝ) => ((⌊r + 1 / 2⌋₊ : ℝ) : EReal)

theorem toWhole_mono {u v : EReal} (h : u ≤ v) : toWhole u ≤ toWhole v := by
  induction u with
  | bot => exact bot_le
  | top => rw [top_le_iff.mp h]
  | coe r =>
    induction v with
    | bot => exact absurd h (by simp)
    | top => exact le_top
    | coe s =>
      have hrs : r ≤ s := EReal.coe_le_coe_iff.mp h
      have hfloor : ⌊r + 1 / 2⌋₊ ≤ ⌊s + 1 / 2⌋₊ := Nat.floor_mono (by linarith)
      exact EReal.coe_le_coe_iff.mpr (Nat.cast_le.mpr hfloor)

theorem toWhole_natCast (n : ℕ) : toWhole ((n : ℝ) : EReal) = (n : ℝ) := by
  have hfloor : ⌊(n : ℝ) + 1 / 2⌋₊ = n :=
    (Nat.floor_eq_iff (by positivity)).mpr ⟨by linarith, by linarith⟩
  show ((⌊(n : ℝ) + 1 / 2⌋₊ : ℝ) : EReal) = _
  rw [hfloor]

/-- The halves of a significand decide the nearest whole number. -/
theorem floor_add_half (m k : ℕ) :
    ⌊(m : ℝ) * 2 ^ (-((k : ℤ) + 1)) + 1 / 2⌋₊ = (m / 2 ^ k + 1) / 2 := by
  have hfraction : (m : ℝ) * 2 ^ (-((k : ℤ) + 1)) + 1 / 2 =
      ((m + 2 ^ k : ℕ) : ℝ) / ((2 ^ (k + 1) : ℕ) : ℝ) := by
    have hunit : (2 : ℝ) ^ (-((k : ℤ) + 1)) = 1 / 2 ^ (k + 1) := by
      rw [zpow_neg, one_div]
      norm_cast
    rw [hunit]
    push_cast
    field_simp
    ring
  rw [hfraction, Nat.floor_div_eq_div, pow_succ, ← Nat.div_div_eq_div_mul,
    Nat.add_div_right _ (by positivity)]

theorem toWhole_zero : toWhole 0 = 0 := by
  simpa using toWhole_natCast 0

/-! ## Magnitudes -/

/-- The exponent of the distance between the doubles around a number. Below `2 ^ -1022` doubles
come no closer. -/
noncomputable def spacing (x : ℝ) : ℤ := max (Int.log 2 x - 52) (-1074)

/-- The nearest double of a number from zero on, as if exponents had no upper end. -/
noncomputable def roundMagnitude (x : ℝ) : ℝ :=
  nearestEven (x / 2 ^ spacing x) * 2 ^ spacing x

theorem two_zpow_pos (e : ℤ) : (0 : ℝ) < 2 ^ e := zpow_pos (by norm_num) e

theorem two_zpow_mono {d e : ℤ} (h : d ≤ e) : (2 : ℝ) ^ d ≤ 2 ^ e :=
  zpow_le_zpow_right₀ (by norm_num) h

theorem natCast_two_pow_mul_zpow (k : ℕ) (e : ℤ) : ((2 ^ k : ℕ) : ℝ) * 2 ^ e = 2 ^ (e + k) := by
  rw [Nat.cast_pow, Nat.cast_ofNat, ← zpow_natCast, ← zpow_add₀ (by norm_num), add_comm]

theorem mul_zpow_pos {m : ℕ} (hm : 0 < m) (e : ℤ) : (0 : ℝ) < m * 2 ^ e :=
  mul_pos (Nat.cast_pos.mpr hm) (two_zpow_pos e)

theorem mul_zpow_lt {m k : ℕ} (h : m < 2 ^ k) (e : ℤ) : (m : ℝ) * 2 ^ e < 2 ^ (e + k) := by
  rw [← natCast_two_pow_mul_zpow]
  exact mul_lt_mul_of_pos_right (Nat.cast_lt.mpr h) (two_zpow_pos e)

theorem mul_zpow_le {m k : ℕ} (h : m ≤ 2 ^ k) (e : ℤ) : (m : ℝ) * 2 ^ e ≤ 2 ^ (e + k) := by
  rw [← natCast_two_pow_mul_zpow]
  exact mul_le_mul_of_nonneg_right (Nat.cast_le.mpr h) (two_zpow_pos e).le

theorem zpow_le_mul_zpow {m k : ℕ} (h : 2 ^ k ≤ m) (e : ℤ) : 2 ^ (e + k) ≤ (m : ℝ) * 2 ^ e := by
  rw [← natCast_two_pow_mul_zpow]
  exact mul_le_mul_of_nonneg_right (Nat.cast_le.mpr h) (two_zpow_pos e).le

theorem two_zpow_log_le {x : ℝ} (h : 0 < x) : (2 : ℝ) ^ Int.log 2 x ≤ x := by
  exact_mod_cast Int.zpow_log_le_self (b := 2) (by norm_num) h

theorem lt_two_zpow_log_succ (x : ℝ) : x < (2 : ℝ) ^ (Int.log 2 x + 1) := by
  exact_mod_cast Int.lt_zpow_succ_log_self (b := 2) (by norm_num) x

theorem roundMagnitude_nonneg (x : ℝ) : 0 ≤ roundMagnitude x := by
  have := two_zpow_pos (spacing x)
  unfold roundMagnitude
  positivity

theorem roundMagnitude_zero : roundMagnitude 0 = 0 := by
  unfold roundMagnitude
  rw [zero_div, nearestEven_zero, Nat.cast_zero, zero_mul]

theorem spacing_mono {x y : ℝ} (hx : 0 < x) (h : x ≤ y) : spacing x ≤ spacing y := by
  have hlog : Int.log 2 x ≤ Int.log 2 y := Int.log_mono_right hx h
  unfold spacing
  omega

/-- A number takes at most 53 digits in units of its spacing. -/
theorem div_spacing_lt (x : ℝ) : x / 2 ^ spacing x < ((2 ^ 53 : ℕ) : ℝ) := by
  rw [div_lt_iff₀ (two_zpow_pos _), natCast_two_pow_mul_zpow]
  refine (lt_two_zpow_log_succ x).trans_le (two_zpow_mono ?_)
  unfold spacing
  omega

theorem roundMagnitude_le_zpow (x : ℝ) : roundMagnitude x ≤ 2 ^ (spacing x + 53) := by
  have hle : nearestEven (x / 2 ^ spacing x) ≤ 2 ^ 53 :=
    nearestEven_le_natCast (div_spacing_lt x).le
  exact mul_zpow_le hle (spacing x)

/-- Above the least spacing a number takes 53 digits and keeps its leading one. -/
theorem le_div_spacing {x : ℝ} (hx : 0 < x) (hs : -1074 < spacing x) :
    ((2 ^ 52 : ℕ) : ℝ) ≤ x / 2 ^ spacing x := by
  rw [le_div_iff₀ (two_zpow_pos _), natCast_two_pow_mul_zpow]
  refine le_trans (two_zpow_mono ?_) (two_zpow_log_le hx)
  unfold spacing at *
  omega

theorem zpow_le_roundMagnitude {x : ℝ} (hx : 0 < x) (hs : -1074 < spacing x) :
    2 ^ (spacing x + 52) ≤ roundMagnitude x := by
  have hle : 2 ^ 52 ≤ nearestEven (x / 2 ^ spacing x) :=
    natCast_le_nearestEven (le_div_spacing hx hs)
  exact zpow_le_mul_zpow hle (spacing x)

theorem roundMagnitude_mono {x y : ℝ} (hx : 0 ≤ x) (h : x ≤ y) :
    roundMagnitude x ≤ roundMagnitude y := by
  rcases hx.eq_or_lt with rfl | hpos
  · rw [roundMagnitude_zero]
    exact roundMagnitude_nonneg y
  rcases (spacing_mono hpos h).lt_or_eq with hlt | heq
  · -- A power of two lies between numbers of different spacing, and between their roundings.
    have hy : -1074 < spacing y := lt_of_le_of_lt (le_max_right _ _) hlt
    calc roundMagnitude x ≤ 2 ^ (spacing x + 53) := roundMagnitude_le_zpow x
      _ ≤ 2 ^ (spacing y + 52) := two_zpow_mono (by omega)
      _ ≤ roundMagnitude y := zpow_le_roundMagnitude (hpos.trans_le h) hy
  · have hdiv : x / 2 ^ spacing x ≤ y / 2 ^ spacing y := by
      rw [heq]
      exact div_le_div_of_nonneg_right h (two_zpow_pos _).le
    have hcast : (nearestEven (x / 2 ^ spacing x) : ℝ) ≤ nearestEven (y / 2 ^ spacing y) := by
      exact_mod_cast nearestEven_mono hdiv
    unfold roundMagnitude
    rw [heq] at hcast ⊢
    exact mul_le_mul_of_nonneg_right hcast (two_zpow_pos _).le

/-- A whole number of at most 53 digits times a power of two is kept. -/
theorem roundMagnitude_eq_self {n : ℕ} {e : ℤ} (hn : n < 2 ^ 53) (he : -1074 ≤ e) :
    roundMagnitude (n * 2 ^ e) = n * 2 ^ e := by
  rcases Nat.eq_zero_or_pos n with rfl | hpos
  · rw [Nat.cast_zero, zero_mul, roundMagnitude_zero]
  have hx := mul_zpow_pos hpos e
  have hlt : (n : ℝ) * 2 ^ e < ((2 : ℕ) : ℝ) ^ (e + 53) := mul_zpow_lt hn e
  have hlog : Int.log 2 ((n : ℝ) * 2 ^ e) < e + 53 :=
    (Int.lt_zpow_iff_log_lt (by norm_num) hx).mp hlt
  have hs : spacing (n * 2 ^ e) ≤ e := by
    unfold spacing
    omega
  -- In units of the spacing the number is whole.
  obtain ⟨k, hk⟩ := Int.eq_ofNat_of_zero_le (sub_nonneg.mpr hs)
  have hdiv : (n : ℝ) * 2 ^ e / 2 ^ spacing (n * 2 ^ e) = ((n * 2 ^ k : ℕ) : ℝ) := by
    rw [mul_div_assoc, ← zpow_sub₀ (by norm_num), hk]
    push_cast
    rw [zpow_natCast]
  unfold roundMagnitude
  rw [hdiv, nearestEven_natCast, ← hdiv, div_mul_cancel₀ _ (two_zpow_pos _).ne']

/-! ## Signed and infinite numbers -/

noncomputable def roundReal (x : ℝ) : ℝ :=
  if x < 0 then -roundMagnitude (-x) else roundMagnitude x

theorem roundReal_of_nonneg {x : ℝ} (h : 0 ≤ x) : roundReal x = roundMagnitude x :=
  if_neg (not_lt.mpr h)

theorem roundReal_neg_of_nonneg {x : ℝ} (h : 0 ≤ x) : roundReal (-x) = -roundMagnitude x := by
  unfold roundReal
  rcases h.eq_or_lt with rfl | hpos
  · rw [neg_zero, if_neg (lt_irrefl _), roundMagnitude_zero, neg_zero]
  · rw [if_pos (neg_lt_zero.mpr hpos), neg_neg]

theorem abs_roundReal (x : ℝ) : |roundReal x| = roundMagnitude |x| := by
  rcases le_total 0 x with hpos | hneg
  · rw [roundReal_of_nonneg hpos, abs_of_nonneg hpos, abs_of_nonneg (roundMagnitude_nonneg x)]
  · have hneg' : 0 ≤ -x := neg_nonneg.mpr hneg
    rw [← neg_neg x, roundReal_neg_of_nonneg hneg', abs_neg, abs_neg, abs_of_nonneg hneg',
      abs_of_nonneg (roundMagnitude_nonneg _)]

theorem roundReal_mono {x y : ℝ} (h : x ≤ y) : roundReal x ≤ roundReal y := by
  unfold roundReal
  split_ifs with hx hy hy
  · exact neg_le_neg (roundMagnitude_mono (by linarith) (by linarith))
  · exact (neg_nonpos.mpr (roundMagnitude_nonneg _)).trans (roundMagnitude_nonneg _)
  · linarith
  · exact roundMagnitude_mono (not_lt.mp hx) h

/-- Finite doubles have a smaller magnitude. -/
noncomputable def limit : ℝ := 2 ^ (1024 : ℤ)

theorem limit_pos : 0 < limit := two_zpow_pos 1024

/-- The least distance between two doubles. -/
noncomputable def leastUnit : ℝ := 2 ^ (-1074 : ℤ)

/-- What lies beyond the finite doubles is infinite. -/
noncomputable def overflow (r : ℝ) : EReal :=
  if limit ≤ r then ⊤ else if r ≤ -limit then ⊥ else (r : EReal)

theorem overflow_of_abs_lt {r : ℝ} (h : |r| < limit) : overflow r = r := by
  have hbounds := abs_lt.mp h
  unfold overflow
  rw [if_neg (by linarith), if_neg (by linarith)]

theorem overflow_of_limit_le {r : ℝ} (h : limit ≤ r) : overflow r = ⊤ :=
  if_pos h

theorem overflow_of_le_neg_limit {r : ℝ} (h : r ≤ -limit) : overflow r = ⊥ := by
  have := limit_pos
  unfold overflow
  rw [if_neg (by linarith), if_pos h]

theorem overflow_mono {r s : ℝ} (h : r ≤ s) : overflow r ≤ overflow s := by
  have := limit_pos
  unfold overflow
  split_ifs <;> first | exact le_top | exact bot_le | exact EReal.coe_le_coe_iff.mpr h | linarith

/-- The nearest double of an extended real number. -/
noncomputable def nearest : EReal → EReal
  | ⊥ => ⊥
  | ⊤ => ⊤
  | (x : ℝ) => overflow (roundReal x)

theorem nearest_coe (x : ℝ) : nearest x = overflow (roundReal x) := rfl

theorem nearest_of_roundMagnitude_lt {x : ℝ} (hx : 0 ≤ x) (h : roundMagnitude x < limit) :
    nearest x = (roundMagnitude x : ℝ) := by
  rw [nearest_coe, roundReal_of_nonneg hx]
  apply overflow_of_abs_lt
  rwa [abs_of_nonneg (roundMagnitude_nonneg x)]

theorem nearest_mono {u v : EReal} (h : u ≤ v) : nearest u ≤ nearest v := by
  induction u with
  | bot => exact bot_le
  | top => rw [top_le_iff.mp h]
  | coe x =>
    induction v with
    | bot => exact absurd h (by simp)
    | top => exact le_top
    | coe y => exact overflow_mono (roundReal_mono (EReal.coe_le_coe_iff.mp h))

/-- The magnitudes of finite doubles. -/
structure IsMagnitude (x : ℝ) : Prop where
  digits : ∃ (n : ℕ) (e : ℤ), n < 2 ^ 53 ∧ -1074 ≤ e ∧ x = n * 2 ^ e
  lt_limit : x < limit

namespace IsMagnitude

theorem nonneg {x : ℝ} (h : IsMagnitude x) : 0 ≤ x := by
  obtain ⟨n, e, -, -, rfl⟩ := h.digits
  have := two_zpow_pos e
  positivity

theorem roundMagnitude_eq {x : ℝ} (h : IsMagnitude x) : roundMagnitude x = x := by
  obtain ⟨n, e, hn, he, rfl⟩ := h.digits
  exact roundMagnitude_eq_self hn he

theorem nearest_eq {x : ℝ} (h : IsMagnitude x) : nearest x = x := by
  rw [nearest_coe, roundReal_of_nonneg h.nonneg, h.roundMagnitude_eq]
  exact overflow_of_abs_lt (by rw [abs_of_nonneg h.nonneg]; exact h.lt_limit)

theorem nearest_neg_eq {x : ℝ} (h : IsMagnitude x) : nearest ((-x : ℝ)) = ((-x : ℝ) : EReal) := by
  rw [nearest_coe, roundReal_neg_of_nonneg h.nonneg, h.roundMagnitude_eq]
  exact overflow_of_abs_lt (by rw [abs_neg, abs_of_nonneg h.nonneg]; exact h.lt_limit)

end IsMagnitude

theorem isMagnitude_leastUnit : IsMagnitude leastUnit := by
  refine ⟨⟨1, -1074, by norm_num, le_rfl, ?_⟩, ?_⟩
  · rw [Nat.cast_one, one_mul]
    rfl
  · exact zpow_lt_zpow_right₀ (by norm_num) (by norm_num)

theorem isMagnitude_natCast {n : ℕ} (h : n ≤ 2 ^ 53) : IsMagnitude n := by
  refine ⟨?_, ?_⟩
  · rcases h.lt_or_eq with hlt | rfl
    · exact ⟨n, 0, hlt, by norm_num, by rw [zpow_zero, mul_one]⟩
    · refine ⟨2 ^ 52, 1, by norm_num, by norm_num, ?_⟩
      rw [natCast_two_pow_mul_zpow]
      norm_num
  · have hcast : (n : ℝ) ≤ ((2 ^ 53 : ℕ) : ℝ) := by exact_mod_cast h
    refine hcast.trans_lt ?_
    rw [← mul_one ((2 ^ 53 : ℕ) : ℝ), ← zpow_zero (2 : ℝ), natCast_two_pow_mul_zpow]
    exact zpow_lt_zpow_right₀ (by norm_num) (by norm_num)

theorem nearest_natCast {n : ℕ} (h : n ≤ 2 ^ 53) : nearest ((n : ℝ) : EReal) = ((n : ℝ) : EReal) :=
  (isMagnitude_natCast h).nearest_eq

@[simp] theorem nearest_zero : nearest 0 = 0 := by
  simpa using nearest_natCast (n := 0) (by norm_num)

theorem nearest_nonneg {v : EReal} (h : 0 ≤ v) : 0 ≤ nearest v := by
  simpa using nearest_mono h

theorem nearest_nonpos {v : EReal} (h : v ≤ 0) : nearest v ≤ 0 := by
  simpa using nearest_mono h

/-! ## The number of an unpacked double -/

/-- A magnitude with a sign. -/
def signed : Sign → ℝ → ℝ
  | .negative, x => -x
  | .positive, x => x

/-- The number that an unpacked double stands for; what is no number is passed over. -/
noncomputable def value : UnpackedFloat → EReal
  | .infinity .positive => ⊤
  | .infinity .negative => ⊥
  | .finite s m e _ => (signed s (m * 2 ^ e) : ℝ)
  | _ => 0

theorem signed_neg (x : ℝ) : signed .negative x = -x := rfl

theorem signed_pos (x : ℝ) : signed .positive x = x := rfl

end CodeQuality.Double
