import CodeQuality.Proofs.Double.ReadingInterval

/-!
The shortest decimal of a double.

The numbers that read as a double make an interval around it. The search goes down the powers of
ten and stops at the first whose multiples meet the interval, so what it finds reads as the double,
and has no more digits than any other decimal that does.
-/

namespace CodeQuality

namespace Binary64

/-! ## Scales of two and of ten -/

/-- The powers that a grid of decimals is compared in are whole multiples of its own. -/
noncomputable def gridScale (binary power : ℤ) : ℝ := 10 ^ (-power).toNat * 2 ^ (-binary).toNat

theorem gridScale_pos (binary power : ℤ) : 0 < gridScale binary power := by
  unfold gridScale
  positivity

theorem zpow_toNat_eq {x : ℝ} (hx : x ≠ 0) (e : ℤ) : x ^ e.toNat = x ^ e * x ^ (-e).toNat := by
  rw [← zpow_natCast, ← zpow_natCast, ← zpow_add₀ hx]
  congr 1
  omega

-- What a number of binary units is multiplied by, and what a number of decimal units is.
def binaryFactor (binary power : ℤ) : ℕ := twoPow binary.toNat * tenPow (-power).toNat

def decimalFactor (binary power : ℤ) : ℕ := tenPow power.toNat * twoPow (-binary).toNat

theorem cast_binaryFactor (binary power : ℤ) :
    (binaryFactor binary power : ℝ) = 2 ^ binary * gridScale binary power := by
  have htwo : ((twoPow binary.toNat : ℕ) : ℝ) = 2 ^ binary.toNat := Nat.cast_pow 2 _
  have hten : ((tenPow (-power).toNat : ℕ) : ℝ) = 10 ^ (-power).toNat := Nat.cast_pow 10 _
  unfold binaryFactor gridScale
  rw [Nat.cast_mul, htwo, hten, zpow_toNat_eq two_ne_zero]
  ring

theorem cast_decimalFactor (binary power : ℤ) :
    (decimalFactor binary power : ℝ) = 10 ^ power * gridScale binary power := by
  have htwo : ((twoPow (-binary).toNat : ℕ) : ℝ) = 2 ^ (-binary).toNat := Nat.cast_pow 2 _
  have hten : ((tenPow power.toNat : ℕ) : ℝ) = 10 ^ power.toNat := Nat.cast_pow 10 _
  unfold decimalFactor gridScale
  rw [Nat.cast_mul, htwo, hten, zpow_toNat_eq (by norm_num : (10 : ℝ) ≠ 0)]
  ring

/-- Multiplied by their factors, whole numbers compare as the numbers they count units of. -/
theorem binary_lt_decimal_iff (t d : ℕ) (binary power : ℤ) :
    t * binaryFactor binary power < d * decimalFactor binary power ↔
      (t : ℝ) * 2 ^ binary < d * 10 ^ power := by
  rw [← Nat.cast_lt (α := ℝ), Nat.cast_mul, Nat.cast_mul, cast_binaryFactor, cast_decimalFactor,
    ← mul_assoc, ← mul_assoc, mul_lt_mul_iff_left₀ (gridScale_pos binary power)]

theorem decimal_lt_binary_iff (t d : ℕ) (binary power : ℤ) :
    d * decimalFactor binary power < t * binaryFactor binary power ↔
      (d : ℝ) * 10 ^ power < t * 2 ^ binary := by
  rw [← Nat.cast_lt (α := ℝ), Nat.cast_mul, Nat.cast_mul, cast_binaryFactor, cast_decimalFactor,
    ← mul_assoc, ← mul_assoc, mul_lt_mul_iff_left₀ (gridScale_pos binary power)]

theorem binary_eq_decimal_iff (t d : ℕ) (binary power : ℤ) :
    t * binaryFactor binary power = d * decimalFactor binary power ↔
      (t : ℝ) * 2 ^ binary = d * 10 ^ power := by
  rw [← Nat.cast_inj (R := ℝ), Nat.cast_mul, Nat.cast_mul, cast_binaryFactor, cast_decimalFactor,
    ← mul_assoc, ← mul_assoc, mul_left_inj' (gridScale_pos binary power).ne']

/-! ## The candidates of a grid -/

-- The multiple of `10 ^ power` just below a double or equal to it.
def lowerPoint (b : Binary64) (power : ℤ) : ℕ :=
  b.readingInterval.2.1 * binaryFactor (b.exponent - 2) power /
    decimalFactor (b.exponent - 2) power

section

variable {b : Binary64} {tie : Tie} {power : ℤ}

theorem decimalFactor_pos (binary power : ℤ) : 0 < decimalFactor binary power :=
  Nat.mul_pos (tenPow_pos _) (twoPow_pos _)

theorem lowerPoint_le (b : Binary64) (power : ℤ) :
    (b.lowerPoint power : ℝ) * 10 ^ power ≤ b.magnitude := by
  rw [magnitude_eq, ← not_lt, ← binary_lt_decimal_iff, not_lt]
  exact Nat.div_mul_le_self _ _

theorem lt_lowerPoint_succ (b : Binary64) (power : ℤ) :
    b.magnitude < ((b.lowerPoint power + 1 : ℕ) : ℝ) * 10 ^ power := by
  rw [magnitude_eq, ← binary_lt_decimal_iff, Nat.mul_comm (b.lowerPoint power + 1)]
  exact Nat.lt_mul_div_succ _ (decimalFactor_pos _ _)

theorem reads_lowerPoint_iff (b : Binary64) (power : ℤ) :
    Reads b (b.lowerPoint power * 10 ^ power) ↔
      b.readingInterval.1 * binaryFactor (b.exponent - 2) power <
          b.lowerPoint power * decimalFactor (b.exponent - 2) power ∨
        b.significand % 2 = 0 ∧ b.readingInterval.1 * binaryFactor (b.exponent - 2) power =
          b.lowerPoint power * decimalFactor (b.exponent - 2) power := by
  rw [binary_lt_decimal_iff, binary_eq_decimal_iff]
  exact ⟨Reads.above, fun h =>
    ⟨h, .inl ((lowerPoint_le b power).trans_lt (lt_greatestReading b))⟩⟩

theorem reads_upperPoint_iff (hpos : 0 < b.significand) (power : ℤ) :
    Reads b ((b.lowerPoint power + 1 : ℕ) * 10 ^ power) ↔
      (b.lowerPoint power + 1) * decimalFactor (b.exponent - 2) power <
          b.readingInterval.2.2 * binaryFactor (b.exponent - 2) power ∨
        b.significand % 2 = 0 ∧ (b.lowerPoint power + 1) * decimalFactor (b.exponent - 2) power =
          b.readingInterval.2.2 * binaryFactor (b.exponent - 2) power := by
  rw [decimal_lt_binary_iff, eq_comm (a := (b.lowerPoint power + 1) * _), binary_eq_decimal_iff,
    eq_comm (a := _ * (2 : ℝ) ^ _)]
  exact ⟨Reads.below, fun h =>
    ⟨.inl ((leastReading_lt hpos).trans (lt_lowerPoint_succ b power)), h⟩⟩

/-- Whether a grid has a number that reads as a double. -/
def HasPoint (b : Binary64) (power : ℤ) : Prop := ∃ digits : ℕ, Reads b (digits * 10 ^ power)

/-- The search on one grid gives one of the two candidates, if any of them reads as the double. -/
theorem gridPoint?_cases (hpos : 0 < b.significand) (tie : Tie) (power : ℤ) :
    (∃ digits : ℕ, gridPoint? tie b power = some digits ∧ Reads b (digits * 10 ^ power)) ∨
      gridPoint? tie b power = none ∧ ¬ Reads b (b.lowerPoint power * 10 ^ power) ∧
        ¬ Reads b ((b.lowerPoint power + 1 : ℕ) * 10 ^ power) := by
  have hlower := reads_lowerPoint_iff b power
  have hupper := reads_upperPoint_iff hpos power
  unfold gridPoint?
  dsimp only
  split
  · -- Both read, so whichever is taken does.
    rename_i hboth
    split
    · exact .inl ⟨_, rfl, hlower.mpr hboth.1⟩
    split
    · exact .inl ⟨_, rfl, hupper.mpr hboth.2⟩
    cases tie with
    | even =>
      refine .inl ⟨_, rfl, ?_⟩
      split
      · exact hlower.mpr hboth.1
      · exact hupper.mpr hboth.2
    | up => exact .inl ⟨_, rfl, hupper.mpr hboth.2⟩
  split
  · rename_i hfits
    exact .inl ⟨_, rfl, hlower.mpr hfits⟩
  · rename_i hlow
    split
    · rename_i hfits
      exact .inl ⟨_, rfl, hupper.mpr hfits⟩
    · rename_i hup
      exact .inr ⟨rfl, fun h => hlow (hlower.mp h), fun h => hup (hupper.mp h)⟩

/-- Between the two candidates and the double no multiple lies, so if any multiple reads as the
double, one of the candidates does. -/
theorem Reads.candidate (hpos : 0 < b.significand) {digits : ℕ}
    (h : Reads b (digits * 10 ^ power)) :
    Reads b (b.lowerPoint power * 10 ^ power) ∨
      Reads b ((b.lowerPoint power + 1 : ℕ) * 10 ^ power) := by
  have hten : (0 : ℝ) < 10 ^ power := zpow_pos (by norm_num) power
  rcases Nat.lt_or_ge (b.lowerPoint power) digits with hlt | hle
  · right
    have hcast : ((b.lowerPoint power + 1 : ℕ) : ℝ) * 10 ^ power ≤ digits * 10 ^ power :=
      mul_le_mul_of_nonneg_right (Nat.cast_le.mpr hlt) hten.le
    refine ⟨.inl ((leastReading_lt hpos).trans (lt_lowerPoint_succ b power)), ?_⟩
    rcases h.below with hbelow | ⟨heven, hend⟩
    · exact .inl (hcast.trans_lt hbelow)
    · rcases (hcast.trans_eq hend).lt_or_eq with hlt' | heq
      · exact .inl hlt'
      · exact .inr ⟨heven, heq⟩
  · left
    have hcast : (digits : ℝ) * 10 ^ power ≤ b.lowerPoint power * 10 ^ power :=
      mul_le_mul_of_nonneg_right (Nat.cast_le.mpr hle) hten.le
    refine ⟨?_, .inl ((lowerPoint_le b power).trans_lt (lt_greatestReading b))⟩
    rcases h.above with habove | ⟨heven, hend⟩
    · exact .inl (habove.trans_le hcast)
    · rcases (hend.trans_le hcast).lt_or_eq with hlt' | heq
      · exact .inl hlt'
      · exact .inr ⟨heven, heq⟩

theorem exists_gridPoint? (hpos : 0 < b.significand) (tie : Tie) (h : HasPoint b power) :
    ∃ digits : ℕ, gridPoint? tie b power = some digits ∧ Reads b (digits * 10 ^ power) := by
  obtain ⟨digits, hdigits⟩ := h
  rcases gridPoint?_cases hpos tie power with hfound | ⟨-, hlower, hupper⟩
  · exact hfound
  · exact absurd (hdigits.candidate hpos) (not_or.mpr ⟨hlower, hupper⟩)

theorem gridPoint?_eq_none (hpos : 0 < b.significand) (h : ¬ HasPoint b power) :
    gridPoint? tie b power = none := by
  rcases gridPoint?_cases hpos tie power with ⟨digits, -, hreads⟩ | ⟨hnone, -⟩
  · exact absurd ⟨digits, hreads⟩ h
  · exact hnone

/-- What the search goes through: it stops at the first grid with a point. -/
theorem coarsestPoint_spec (hpos : 0 < b.significand) (tie : Tie) (steps : ℕ) {start last : ℤ}
    (hlast : last ≤ start) (hsteps : start < last + steps) (h : HasPoint b last) :
    ∃ digits : ℕ, ∃ found ≤ start, coarsestPoint tie b steps start = (digits, found) ∧
      Reads b (digits * 10 ^ found) ∧ ∀ p, found < p → p ≤ start → ¬ HasPoint b p := by
  induction steps generalizing start with
  | zero => exact absurd hsteps (by push_cast; omega)
  | succ steps ih =>
    by_cases hpoint : HasPoint b start
    · obtain ⟨digits, hgrid, hreads⟩ := exists_gridPoint? hpos tie hpoint
      refine ⟨digits, start, le_rfl, ?_, hreads, fun p hp hp' => absurd hp (not_lt.mpr hp')⟩
      rw [coarsestPoint, hgrid]
    · have hne : last ≠ start := fun heq => hpoint (heq ▸ h)
      push_cast at hsteps
      obtain ⟨digits, found, hfound, hsearch, hreads, hcoarse⟩ :=
        ih (show last ≤ start - 1 by omega) (by omega)
      refine ⟨digits, found, by omega, ?_, hreads, fun p hp hp' => ?_⟩
      · rw [coarsestPoint, gridPoint?_eq_none hpos hpoint]
        exact hsearch
      · rcases hp'.lt_or_eq with hlt | rfl
        · exact hcoarse p hp (by omega)
        · exact hpoint

/-- A grid as fine as a quarter of the distance between doubles has a point. -/
theorem hasPoint_of_le (h : (10 : ℝ) ^ power ≤ 2 ^ (b.exponent - 2)) (hpos : 0 < b.significand) :
    HasPoint b power := by
  refine ⟨b.lowerPoint power, .inl ?_, .inl ((lowerPoint_le b power).trans_lt
    (lt_greatestReading b))⟩
  have hleast : b.leastReading ≤ b.magnitude - 2 ^ (b.exponent - 2) := by
    have hstep : b.readingInterval.1 + 1 ≤ b.readingInterval.2.1 := by
      show 4 * b.significand - (if b.significand = twoPow 52 ∧ -1074 < b.exponent then 1 else 2) +
        1 ≤ 4 * b.significand
      split_ifs <;> omega
    have hcast : (b.readingInterval.1 : ℝ) + 1 ≤ b.readingInterval.2.1 := by exact_mod_cast hstep
    have hscaled := mul_le_mul_of_nonneg_right hcast (Double.two_zpow_pos (b.exponent - 2)).le
    rw [magnitude_eq]
    unfold leastReading
    linarith
  have hupper := lt_lowerPoint_succ b power
  push_cast at hupper
  linarith

end

/-! ## The start of the search -/

/-- A power of ten above all numbers below `2 ^ k`. -/
def startPower (k : ℤ) : ℤ := Int.fdiv (k * 30103) 100000 + 1

-- The two comparisons of `10 ^ startPower k` with `2 ^ k`, in whole numbers.
def startsAbove (k : ℤ) : Bool :=
  decimalFactor k (startPower k - 1) ≤ binaryFactor k (startPower k - 1) &&
    binaryFactor k (startPower k) ≤ decimalFactor k (startPower k)

theorem startsAbove_table : (List.range 2201).all (fun i => startsAbove (i - 1100)) = true := by
  decide +kernel

theorem startPower_bounds {k : ℤ} (hlow : -1100 ≤ k) (hhigh : k ≤ 1100) :
    (10 : ℝ) ^ (startPower k - 1) ≤ 2 ^ k ∧ (2 : ℝ) ^ k ≤ 10 ^ startPower k := by
  obtain ⟨i, hi⟩ : ∃ i : ℕ, k = i - 1100 := ⟨(k + 1100).toNat, by omega⟩
  have hentry := List.all_eq_true.mp startsAbove_table i (List.mem_range.mpr (by omega))
  rw [← hi] at hentry
  unfold startsAbove at hentry
  rw [Bool.and_eq_true, decide_eq_true_eq, decide_eq_true_eq] at hentry
  have hlower := (binary_lt_decimal_iff 1 1 k (startPower k - 1)).not
  have hupper := (decimal_lt_binary_iff 1 1 k (startPower k)).not
  rw [one_mul, one_mul, Nat.cast_one, one_mul, one_mul, not_lt, not_lt] at hlower hupper
  exact ⟨hlower.mp hentry.1, hupper.mp hentry.2⟩

-- The exponent of the first power of two above a double.
def topExponent (b : Binary64) : ℤ := b.significand.log2 + 1 + b.exponent

theorem succ_mul_le (b : Binary64) :
    ((b.significand + 1 : ℕ) : ℝ) * 2 ^ b.exponent ≤ 2 ^ b.topExponent := by
  have hlt : b.significand + 1 ≤ 2 ^ (b.significand.log2 + 1) := Nat.lt_log2_self
  have hle := Double.mul_zpow_le hlt b.exponent
  have hexponent : b.exponent + ((b.significand.log2 + 1 : ℕ) : ℤ) = b.topExponent := by
    unfold topExponent
    push_cast
    ring
  rwa [hexponent] at hle

theorem IsFinite.topExponent_bounds {b : Binary64} (h : b.IsFinite) (hpos : 0 < b.significand) :
    b.exponent < b.topExponent ∧ b.topExponent ≤ b.exponent + 53 := by
  have hlog := (Nat.log2_lt hpos.ne').mpr h.digits
  unfold topExponent
  omega

/-- What reads as a double is less than the first power of two above it. -/
theorem Reads.lt_topPower {b : Binary64} {v : ℝ} (h : Reads b v) : v < 2 ^ b.topExponent := by
  have htwo := Double.two_zpow_pos b.exponent
  calc v ≤ (b.significand + 1 / 2) * 2 ^ b.exponent := b.greatestReading_eq ▸ h.le_greatest
    _ < ((b.significand + 1 : ℕ) : ℝ) * 2 ^ b.exponent := by
        push_cast
        exact mul_lt_mul_of_pos_right (by linarith) htwo
    _ ≤ 2 ^ b.topExponent := b.succ_mul_le

/-- The shortest decimal reads as the double, and no grid that is coarser and not above the double
has a point that does. -/
theorem shortest_spec {b : Binary64} (hb : b.IsFinite) (hpos : 0 < b.significand) (tie : Tie) :
    ∃ digits : ℕ, ∃ found : ℤ, b.shortest tie = ⟨b.negative, digits, found⟩ ∧
      Reads b (digits * 10 ^ found) ∧
      ∀ p, found < p → p ≤ startPower b.topExponent → ¬ HasPoint b p := by
  have htop := hb.topExponent_bounds hpos
  have hleast := hb.least
  have hhighest := hb.highest
  have hfine : (10 : ℝ) ^ (startPower b.topExponent - 23) ≤ 2 ^ (b.exponent - 2) := by
    have hstart := (startPower_bounds (k := b.topExponent) (by omega) (by omega)).1
    have htwenty : (10 : ℝ) ^ (-22 : ℤ) ≤ 2 ^ (-73 : ℤ) := by norm_num
    calc (10 : ℝ) ^ (startPower b.topExponent - 23)
        = 10 ^ (startPower b.topExponent - 1) * 10 ^ (-22 : ℤ) := by
          rw [← zpow_add₀ (by norm_num)]
          congr 1
          omega
      _ ≤ 2 ^ b.topExponent * 2 ^ (-73 : ℤ) :=
          mul_le_mul hstart htwenty (zpow_nonneg (by norm_num) _) (Double.two_zpow_pos _).le
      _ = 2 ^ (b.topExponent - 73) := by
          rw [← zpow_add₀ two_ne_zero]
          congr 1
      _ ≤ 2 ^ (b.exponent - 2) := Double.two_zpow_mono (by omega)
  obtain ⟨digits, found, -, hsearch, hreads, hcoarse⟩ :=
    coarsestPoint_spec hpos tie 24
      (show startPower b.topExponent - 23 ≤ startPower b.topExponent by omega) (by omega)
      (hasPoint_of_le hfine hpos)
  refine ⟨digits, found, ?_, hreads, hcoarse⟩
  unfold shortest
  rw [if_neg hpos.ne']
  exact congrArg (fun point => (⟨b.negative, point.1, point.2⟩ : Decimal)) hsearch

theorem Reads.digits_ne_zero {b : Binary64} (hpos : 0 < b.significand) {digits : ℕ} {found : ℤ}
    (h : Reads b (digits * 10 ^ found)) : digits ≠ 0 := by
  rintro rfl
  have hle := h.least_le
  rw [Nat.cast_zero, zero_mul] at hle
  exact absurd (leastReading_pos hpos) (not_lt.mpr hle)

/-- The digits of the shortest decimal take less than 64 bits. -/
theorem Reads.digits_lt {b : Binary64} (hb : b.IsFinite) (hpos : 0 < b.significand) {digits : ℕ}
    {found : ℤ} (h : Reads b (digits * 10 ^ found))
    (hcoarse : ∀ p, found < p → p ≤ startPower b.topExponent → ¬ HasPoint b p) :
    digits < 2 ^ 64 := by
  have hdigits := hb.digits
  have hten : (0 : ℝ) < 10 ^ found := zpow_pos (by norm_num) found
  by_cases hstart : found < startPower b.topExponent
  · -- The next coarser grid has no point, so it is coarser than a quarter of the distance.
    have hcoarser : (2 : ℝ) ^ (b.exponent - 2) < 10 * 10 ^ found := by
      rw [← zpow_one_add₀ (by norm_num), ← not_le]
      intro hle
      exact hcoarse (1 + found) (by omega) (by omega) (hasPoint_of_le hle hpos)
    have hlt : (digits : ℝ) * 10 ^ found < ((40 * b.significand + 20 : ℕ) : ℝ) * 10 ^ found := by
      calc (digits : ℝ) * 10 ^ found ≤ b.greatestReading := h.le_greatest
        _ = ((4 * b.significand + 2 : ℕ) : ℝ) * 2 ^ (b.exponent - 2) := rfl
        _ < ((4 * b.significand + 2 : ℕ) : ℝ) * (10 * 10 ^ found) :=
            mul_lt_mul_of_pos_left hcoarser (by positivity)
        _ = ((40 * b.significand + 20 : ℕ) : ℝ) * 10 ^ found := by
            push_cast
            ring
    have hcast := lt_of_mul_lt_mul_right hlt hten.le
    have hnat : digits < 40 * b.significand + 20 := by exact_mod_cast hcast
    omega
  · have htop := hb.topExponent_bounds hpos
    have hleast := hb.least
    have hhighest := hb.highest
    have hbound := (startPower_bounds (k := b.topExponent) (by omega) (by omega)).2
    have hlt : (digits : ℝ) * 10 ^ found < 1 * 10 ^ found := by
      calc (digits : ℝ) * 10 ^ found < 2 ^ b.topExponent := h.lt_topPower
        _ ≤ 10 ^ startPower b.topExponent := hbound
        _ ≤ 10 ^ found := zpow_le_zpow_right₀ (by norm_num) (by omega)
        _ = 1 * 10 ^ found := (one_mul _).symm
    have hcast := lt_of_mul_lt_mul_right hlt hten.le
    have hnat : digits < 1 := by exact_mod_cast hcast
    omega

/-! ## Decimals of few digits -/

/-- Numbers that read as one double are no further apart than doubles are. -/
theorem Reads.abs_sub_reads_le {b : Binary64} {v w : ℝ} (hv : Reads b v) (hw : Reads b w) :
    |v - w| ≤ 2 ^ b.exponent := by
  have hhalf : (2 : ℝ) ^ b.exponent = 2 ^ (b.exponent - 1) + 2 ^ (b.exponent - 1) := by
    rw [← two_mul, ← zpow_one_add₀ two_ne_zero]
    congr 1
    omega
  rw [hhalf]
  calc |v - w| ≤ |v - b.magnitude| + |b.magnitude - w| := abs_sub_le _ _ _
    _ ≤ 2 ^ (b.exponent - 1) + 2 ^ (b.exponent - 1) := by
        rw [abs_sub_comm b.magnitude w]
        exact add_le_add hv.abs_sub_magnitude_le hw.abs_sub_magnitude_le

/-- Where doubles lie closer together than the decimals with some number of places, a decimal is
the only one with these places that reads as its double. -/
theorem Reads.eq_of_two_zpow_lt {b : Binary64} {m n : ℕ} {power : ℤ}
    (hm : Reads b (m * 10 ^ power)) (hn : Reads b (n * 10 ^ power))
    (h : (2 : ℝ) ^ b.exponent < 10 ^ power) : m = n := by
  have hten : (0 : ℝ) < 10 ^ power := zpow_pos (by norm_num) power
  have hdiff : |(m : ℝ) - n| * 10 ^ power < 1 * 10 ^ power := by
    calc |(m : ℝ) - n| * 10 ^ power = |(m : ℝ) * 10 ^ power - n * 10 ^ power| := by
          rw [← sub_mul, abs_mul, abs_of_pos hten]
      _ ≤ 2 ^ b.exponent := hm.abs_sub_reads_le hn
      _ < 1 * 10 ^ power := by rwa [one_mul]
  have hcast := lt_of_mul_lt_mul_right hdiff hten.le
  have hint : |(m : ℤ) - n| < 1 := by exact_mod_cast hcast
  have hzero := Int.abs_lt_one_iff.mp hint
  omega

/-- Doubles of numbers with fifteen digits lie closer together than the last of these digits. -/
theorem Reads.two_zpow_lt {b : Binary64} (hb : b.IsFinite) {n k : ℕ} (hn : n < 10 ^ 15)
    (hk : k ≤ 22) (h : Reads b (n * 10 ^ (-k : ℤ))) : (2 : ℝ) ^ b.exponent < 10 ^ (-k : ℤ) := by
  have hten : (0 : ℝ) < 10 ^ (-k : ℤ) := zpow_pos (by norm_num) _
  rcases hb.lead with hlead | hleast
  · have hhalf := (abs_le.mp h.abs_sub_magnitude_le).1
    have hunit : (2 : ℝ) ^ (b.exponent - 1) = 1 / 2 * 2 ^ b.exponent := by
      rw [zpow_sub₀ two_ne_zero]
      norm_num
      ring
    have hlow : (4503599627370496 : ℝ) * 2 ^ b.exponent ≤ b.magnitude := by
      have hcast : (4503599627370496 : ℝ) ≤ b.significand := by exact_mod_cast hlead
      exact mul_le_mul_of_nonneg_right hcast (Double.two_zpow_pos _).le
    have hn' : (n : ℝ) ≤ 1000000000000000 := by exact_mod_cast hn.le
    have hhigh := mul_le_mul_of_nonneg_right hn' hten.le
    have hpos := Double.two_zpow_pos b.exponent
    rw [hunit] at hhalf
    linarith
  · rw [hleast]
    calc (2 : ℝ) ^ (-1074 : ℤ) < 2 ^ (-88 : ℤ) := zpow_lt_zpow_right₀ (by norm_num) (by norm_num)
      _ ≤ 10 ^ (-22 : ℤ) := by norm_num
      _ ≤ 10 ^ (-k : ℤ) := zpow_le_zpow_right₀ (by norm_num) (by omega)

/-- The shortest decimal of a double that was given by few digits is the number given. -/
theorem shortest_of_reads {b : Binary64} (hb : b.IsFinite) (hpos : 0 < b.significand) (tie : Tie)
    {n k : ℕ} (hn : n < 10 ^ 15) (hk : k ≤ 22) (h : Reads b (n * 10 ^ (-k : ℤ))) :
    ∃ digits : ℕ, ∃ found : ℤ, b.shortest tie = ⟨b.negative, digits, found⟩ ∧ -k ≤ found ∧
      (digits : ℝ) * 10 ^ found = n * 10 ^ (-k : ℤ) := by
  have htop := hb.topExponent_bounds hpos
  have hleast := hb.least
  have hhighest := hb.highest
  obtain ⟨digits, found, hshortest, hreads, hcoarse⟩ := shortest_spec hb hpos tie
  have hstart : -(k : ℤ) ≤ startPower b.topExponent := by
    have hone : (1 : ℝ) ≤ n := by
      exact_mod_cast Nat.one_le_iff_ne_zero.mpr (h.digits_ne_zero hpos)
    have hlt : (10 : ℝ) ^ (-k : ℤ) < 10 ^ startPower b.topExponent := by
      calc (10 : ℝ) ^ (-k : ℤ) = 1 * 10 ^ (-k : ℤ) := (one_mul _).symm
        _ ≤ n * 10 ^ (-k : ℤ) :=
            mul_le_mul_of_nonneg_right hone (zpow_nonneg (by norm_num) _)
        _ < 2 ^ b.topExponent := h.lt_topPower
        _ ≤ 10 ^ startPower b.topExponent :=
            (startPower_bounds (k := b.topExponent) (by omega) (by omega)).2
    exact ((zpow_lt_zpow_iff_right₀ (by norm_num)).mp hlt).le
  have hfound : -(k : ℤ) ≤ found := by
    by_contra hlt
    exact hcoarse (-k) (not_le.mp hlt) hstart ⟨n, h⟩
  refine ⟨digits, found, hshortest, hfound, ?_⟩
  -- On the grid of the number given both are multiples of one unit.
  obtain ⟨j, hj⟩ := Int.eq_ofNat_of_zero_le (show 0 ≤ found + k by omega)
  have hsame : (digits : ℝ) * 10 ^ found = ((digits * 10 ^ j : ℕ) : ℝ) * 10 ^ (-k : ℤ) := by
    rw [show found = j + -k by omega, zpow_add₀ (by norm_num), zpow_natCast]
    push_cast
    ring
  rw [hsame] at hreads ⊢
  rw [hreads.eq_of_two_zpow_lt h (h.two_zpow_lt hb hn hk)]

end Binary64

end CodeQuality
