import CodeQuality.Json.Record
import CodeQuality.Proofs.Double.Scaled
import CodeQuality.Proofs.Double.Shortest
import CodeQuality.Proofs.Json.Reading

/-!
Doubles that are written and read back.

A double is written by the digits of the shortest decimal that reads as it, but what reads them
scales by rounded powers of ten. So a finite double comes back as a finite double that is close to
it, and not always as itself.
-/

namespace CodeQuality

open Double (Denotes withSign unitRoundoff underflowError)

namespace Json

/-- The double as which the text of a double is read, if it is read as any. -/
def reread? (x : Float) : Option Float := (parse? (float x).compact).bind float?

theorem reread?_eq (x : Float) : reread? x = (float x).respelled.float? := by
  unfold reread?
  rw [parse?_compact]
  rfl

theorem reread?_of_ofFloat? {x : Float} {b : Binary64} (h : Binary64.ofFloat? x = some b) :
    reread? x = (JsonNumber.decimal (b.shortest .even)).respelled.toFloat? := by
  have hfloat : float x = number (.decimal (b.shortest .even)) := by
    unfold float
    rw [h]
    rfl
  rw [reread?_eq, hfloat]
  rfl

/-- What is no finite number has no text that is read as a number. -/
theorem reread?_eq_none {x : Float} (h : x.isFinite = false) : reread? x = none := by
  have hnone : Binary64.ofFloat? x = none := by
    rw [← Option.not_isSome_iff_eq_none, Binary64.isSome_ofFloat?, h]
    exact Bool.false_ne_true
  have hnull : float x = null := by
    unfold float
    rw [hnone]
  rw [reread?_eq, hnull]
  rfl

end Json

namespace Binary64

variable {b : Binary64}

theorem toFloat?_shortest_zero (h : b.significand = 0) (tie : Tie) :
    (JsonNumber.decimal (b.shortest tie)).respelled.toFloat? =
      some (if b.negative then -0.0 else 0.0) := by
  have hshortest : b.shortest tie = ⟨b.negative, 0, 0⟩ := by
    unfold shortest
    rw [if_pos h]
  obtain ⟨zeros, hrespelled, -⟩ :=
    JsonNumber.exists_respelled_decimal (b.shortest tie) (by rw [hshortest]; exact twoPow_pos 64)
  rw [hrespelled, hshortest]
  show ((Decimal.scaledMagnitude? (0 * 10 ^ zeros) _).map fun x => if b.negative then -x else x) = _
  rw [Nat.zero_mul]
  rfl

theorem exists_zeros_respelled {tie : Tie} {digits : ℕ} {found : ℤ}
    (hshortest : b.shortest tie = ⟨b.negative, digits, found⟩) (hnonzero : digits ≠ 0)
    (h64 : digits < 2 ^ 64) :
    ∃ zeros : ℕ, (JsonNumber.decimal (b.shortest tie)).respelled =
        .decimal ⟨b.negative, digits * 10 ^ zeros, found - zeros⟩ ∧
      digits * 10 ^ zeros < 2 ^ 64 ∧ (zeros = 0 ∨ found - zeros = -1) := by
  have hplace : (⟨b.negative, digits, found⟩ : Decimal).lastPlace = found := if_neg hnonzero
  have hrespelled := JsonNumber.exists_respelled_decimal ⟨b.negative, digits, found⟩ h64
  rw [hplace] at hrespelled
  rw [hshortest]
  exact hrespelled

theorem mul_tenPow_mul_zpow (digits zeros : ℕ) (found : ℤ) :
    ((digits * 10 ^ zeros : ℕ) : ℝ) * 10 ^ (found - zeros : ℤ) = digits * 10 ^ found := by
  push_cast
  rw [zpow_sub₀ (by norm_num), zpow_natCast, mul_assoc, mul_div_cancel₀ _ (by positivity)]

/-- The decimal that is read back is the one that was written. -/
theorem exists_respelled_shortest (hb : b.IsFinite) (hpos : 0 < b.significand) (tie : Tie) :
    ∃ d : Decimal, (JsonNumber.decimal (b.shortest tie)).respelled = .decimal d ∧
      d.negative = b.negative ∧ d.digits ≠ 0 ∧ d.digits < 2 ^ 64 ∧
      Reads b (d.digits * 10 ^ d.exponent) := by
  obtain ⟨digits, found, hshortest, hreads, hcoarse⟩ := shortest_spec hb hpos tie
  have hnonzero := hreads.digits_ne_zero hpos
  obtain ⟨zeros, hrespelled, hfits, -⟩ :=
    exists_zeros_respelled hshortest hnonzero (hreads.digits_lt hb hpos hcoarse)
  refine ⟨_, hrespelled, rfl, Nat.mul_ne_zero hnonzero (by positivity), hfits, ?_⟩
  show Reads b (((digits * 10 ^ zeros : ℕ) : ℝ) * 10 ^ (found - zeros : ℤ))
  rwa [mul_tenPow_mul_zpow]

/-- The greatest doubles, whose products of digits and powers of ten might not be finite. -/
theorem toFloat?_shortest_top : ∀ negative : Bool, (List.range 16).all (fun i =>
    match (JsonNumber.decimal
        (shortest .even ⟨negative, 2 ^ 53 - 1 - i, 971⟩)).respelled.toFloat?.bind ofFloat? with
    | some c => c.negative == negative && c.exponent == 971 &&
        decide (c.significand ≤ 2 ^ 53 - 1 - i + 1 ∧ 2 ^ 53 - 1 - i ≤ c.significand + 1)
    | none => false) = true := by
  decide +kernel

/-- The error of a double that comes back, given the magnitude that was written. -/
noncomputable def rereadError (magnitude : ℝ) : ℝ :=
  16 * unitRoundoff * magnitude + 4 * underflowError

theorem magnitude_nonneg (b : Binary64) : 0 ≤ b.magnitude :=
  mul_nonneg (Nat.cast_nonneg _) (Double.two_zpow_pos _).le

/-- The two errors, of the digits and of the scaling, add up. -/
theorem abs_sub_le_rereadError {v exact : ℝ}
    (hscaled : |v - exact| ≤ Double.scaledError exact)
    (hdigits : |exact - b.magnitude| ≤ unitRoundoff * b.magnitude + underflowError) :
    |v - b.magnitude| ≤ rereadError b.magnitude := by
  have hmagnitude := b.magnitude_nonneg
  have hunderflow := Double.underflowError_pos
  have hunit : unitRoundoff ≤ 1 / 24 := by
    rw [Double.unitRoundoff_eq]
    norm_num
  have hexact' : exact ≤ 25 / 24 * b.magnitude + underflowError := by
    have hle := mul_le_mul_of_nonneg_right hunit hmagnitude
    linarith [(abs_le.mp hdigits).2]
  have hrelative : 12 * unitRoundoff * exact ≤
      12 * unitRoundoff * (25 / 24 * b.magnitude) + underflowError := by
    have hle := mul_le_mul_of_nonneg_left hexact' Double.unitRoundoff_pos.le
    have hsmall := mul_le_mul_of_nonneg_right hunit hunderflow.le
    linarith
  have hproduct := mul_nonneg Double.unitRoundoff_pos.le hmagnitude
  calc |v - b.magnitude| ≤ |v - exact| + |exact - b.magnitude| := abs_sub_le _ _ _
    _ ≤ rereadError b.magnitude := by
        unfold Double.scaledError at hscaled
        unfold rereadError
        linarith

theorem le_of_lt_add_half {k m : ℕ} (h : (k : ℝ) < m + 1 / 2) : k ≤ m := by
  by_contra hlt
  have hle : (m : ℝ) + 1 ≤ k := by exact_mod_cast not_le.mp hlt
  linarith

/-- Only a few doubles are so close to the limit. -/
theorem exists_of_top (hb : b.IsFinite) {exact : ℝ} (hreads : Reads b exact)
    (hbound : Double.limit - Double.headroom < exact) :
    ∃ i < 16, b = ⟨b.negative, 2 ^ 53 - 1 - i, 971⟩ := by
  have hdigits := hb.digits
  have hhighest := hb.highest
  have hunit := Double.two_zpow_pos 971
  have hlimit : Double.limit - Double.headroom = ((2 ^ 53 - 16 : ℕ) : ℝ) * 2 ^ (971 : ℤ) := by
    unfold Double.limit Double.headroom
    rw [show (1024 : ℤ) = 53 + 971 by norm_num, show (975 : ℤ) = 4 + 971 by norm_num,
      zpow_add₀ two_ne_zero, zpow_add₀ two_ne_zero, ← sub_mul]
    norm_num
  have hlt : ((2 ^ 53 - 16 : ℕ) : ℝ) * 2 ^ (971 : ℤ) <
      (b.significand + 1 / 2) * 2 ^ b.exponent := by
    rw [← hlimit, ← greatestReading_eq]
    exact hbound.trans_le hreads.le_greatest
  have hexponent : b.exponent = 971 := by
    by_contra hne
    have hhalf : (2 : ℝ) ^ b.exponent ≤ 1 / 2 * 2 ^ (971 : ℤ) := by
      calc (2 : ℝ) ^ b.exponent ≤ 2 ^ (-1 + 971 : ℤ) := Double.two_zpow_mono (by omega)
        _ = 1 / 2 * 2 ^ (971 : ℤ) := by
            rw [zpow_add₀ two_ne_zero]
            norm_num
    have hsignificand : (b.significand : ℝ) + 1 / 2 ≤ 2 ^ 53 := by
      have hle : (b.significand : ℝ) + 1 ≤ 2 ^ 53 := by exact_mod_cast hdigits
      linarith
    have hle : (b.significand + 1 / 2 : ℝ) * 2 ^ b.exponent ≤ 2 ^ 53 * (1 / 2 * 2 ^ (971 : ℤ)) :=
      mul_le_mul hsignificand hhalf (Double.two_zpow_pos _).le (by positivity)
    rw [← mul_assoc] at hle
    have hcast := lt_of_mul_lt_mul_right (hlt.trans_le hle) hunit.le
    norm_num at hcast
  rw [hexponent] at hlt
  have hcast := lt_of_mul_lt_mul_right hlt hunit.le
  have hnat : 2 ^ 53 - 16 ≤ b.significand := le_of_lt_add_half hcast
  refine ⟨2 ^ 53 - 1 - b.significand, by omega, ?_⟩
  rw [show 2 ^ 53 - 1 - (2 ^ 53 - 1 - b.significand) = b.significand by omega, ← hexponent]

/-- Among the greatest doubles at most a neighbour comes back. -/
theorem exists_toFloat?_shortest_top (negative : Bool) {i : ℕ} (hi : i < 16) :
    ∃ y c, (JsonNumber.decimal
        (shortest .even ⟨negative, 2 ^ 53 - 1 - i, 971⟩)).respelled.toFloat? = some y ∧
      ofFloat? y = some c ∧ c.negative = negative ∧ c.exponent = 971 ∧
      c.significand ≤ 2 ^ 53 - 1 - i + 1 ∧ 2 ^ 53 - 1 - i ≤ c.significand + 1 := by
  have hentry := List.all_eq_true.mp (toFloat?_shortest_top negative) i (List.mem_range.mpr hi)
  cases hy : (JsonNumber.decimal
      (shortest .even ⟨negative, 2 ^ 53 - 1 - i, 971⟩)).respelled.toFloat? with
  | none =>
    rw [hy] at hentry
    cases hentry
  | some y =>
    rw [hy, Option.bind_some] at hentry
    cases hc : ofFloat? y with
    | none =>
      rw [hc] at hentry
      cases hentry
    | some c =>
      rw [hc] at hentry
      simp only [Bool.and_eq_true, beq_iff_eq, decide_eq_true_eq] at hentry
      exact ⟨y, c, rfl, hc, hentry.1.1, hentry.1.2, hentry.2⟩

theorem abs_sub_le_of_neighbour {c : Binary64} (hexponent : c.exponent = b.exponent)
    (hlead : 2 ^ 52 ≤ b.significand) (hupper : c.significand ≤ b.significand + 1)
    (hlower : b.significand ≤ c.significand + 1) :
    |c.magnitude - b.magnitude| ≤ rereadError b.magnitude := by
  have hunit := Double.two_zpow_pos b.exponent
  have hupper' : (c.significand : ℝ) ≤ b.significand + 1 := by exact_mod_cast hupper
  have hlower' : (b.significand : ℝ) ≤ c.significand + 1 := by exact_mod_cast hlower
  have hstep : |c.magnitude - b.magnitude| ≤ 2 ^ b.exponent := by
    unfold magnitude
    rw [hexponent, ← sub_mul, abs_mul, abs_of_pos hunit]
    refine mul_le_of_le_one_left hunit.le ?_
    rw [abs_le]
    constructor <;> linarith
  have hrelative : (2 : ℝ) ^ b.exponent ≤ 16 * unitRoundoff * b.magnitude := by
    have hcast : (2 ^ 52 : ℝ) ≤ b.significand := by exact_mod_cast hlead
    have hone : (1 : ℝ) ≤ 16 * unitRoundoff * b.significand := by
      rw [Double.unitRoundoff_eq]
      linarith
    calc (2 : ℝ) ^ b.exponent = 1 * 2 ^ b.exponent := (one_mul _).symm
      _ ≤ 16 * unitRoundoff * b.significand * 2 ^ b.exponent :=
          mul_le_mul_of_nonneg_right hone hunit.le
      _ = 16 * unitRoundoff * b.magnitude := by
          unfold magnitude
          ring
  unfold rereadError
  linarith [Double.underflowError_pos]

theorem exists_toFloat?_shortest_of_pos (hb : b.IsFinite) (hpos : 0 < b.significand) :
    ∃ y, ∃ v : ℝ, (JsonNumber.decimal (b.shortest .even)).respelled.toFloat? = some y ∧
      Denotes y (withSign b.negative v : ℝ) ∧ |v - b.magnitude| ≤ rereadError b.magnitude := by
  obtain ⟨d, hrespelled, hnegative, hnonzero, h64, hreads⟩ :=
    exists_respelled_shortest hb hpos .even
  by_cases hbound : (d.digits : ℝ) * 10 ^ d.exponent ≤ Double.limit - Double.headroom
  · obtain ⟨y, v, hscaled, hy, herror⟩ := Double.exists_scaled? hnonzero h64 hbound
    rw [hnegative] at hy
    refine ⟨y, v, by rw [hrespelled]; exact hscaled, hy, ?_⟩
    exact abs_sub_le_rereadError herror (hreads.abs_sub_le_error hb)
  · obtain ⟨i, hi, hparts⟩ := exists_of_top hb hreads (not_le.mp hbound)
    obtain ⟨y, c, hy, hc, hsign, hexponent, hupper, hlower⟩ :=
      exists_toFloat?_shortest_top b.negative hi
    have hsignificand : b.significand = 2 ^ 53 - 1 - i := congrArg significand hparts
    have hdenotes := denotes_of_ofFloat? hc
    unfold value at hdenotes
    rw [hsign] at hdenotes
    refine ⟨y, c.magnitude, by rw [hparts]; exact hy, hdenotes, ?_⟩
    rw [← hsignificand] at hupper hlower
    exact abs_sub_le_of_neighbour (hexponent.trans (congrArg exponent hparts).symm)
      (by omega) hupper hlower

theorem exists_toFloat?_shortest (hb : b.IsFinite) :
    ∃ y, ∃ v : ℝ, (JsonNumber.decimal (b.shortest .even)).respelled.toFloat? = some y ∧
      Denotes y (withSign b.negative v : ℝ) ∧ |v - b.magnitude| ≤ rereadError b.magnitude := by
  rcases Nat.eq_zero_or_pos b.significand with hzero | hpos
  · have hmagnitude : b.magnitude = 0 := by
      unfold magnitude
      rw [hzero, Nat.cast_zero, zero_mul]
    have hdenotes : Denotes 0.0 ((0 : ℝ) : EReal) := Double.denotes_zero
    refine ⟨_, 0, toFloat?_shortest_zero hzero .even, hdenotes.withSign b.negative, ?_⟩
    unfold rereadError
    rw [hmagnitude, sub_zero, abs_zero, mul_zero, zero_add]
    linarith [Double.underflowError_pos]
  · exact exists_toFloat?_shortest_of_pos hb hpos

theorem lt_tenPow_of_few {n : ℕ} (hn : n < 10 ^ 14) (k : ℕ) :
    (n : ℝ) * 10 ^ (-k : ℤ) < 10 ^ (14 : ℤ) := by
  have hlt : (n : ℝ) < 10 ^ (14 : ℤ) := by exact_mod_cast hn
  have hle : (10 : ℝ) ^ (-k : ℤ) ≤ 1 := zpow_le_one_of_nonpos₀ (by norm_num) (by omega)
  exact (mul_le_of_le_one_right (Nat.cast_nonneg n) hle).trans_lt hlt

/-- The shortest decimal of a double that a decimal of few digits reads as has no more digits. -/
theorem shortest_of_few (hb : b.IsFinite) (hpos : 0 < b.significand) {n k : ℕ} (hn : n < 10 ^ 14)
    (hk : k ≤ 22) (h : Reads b (n * 10 ^ (-k : ℤ))) :
    ∃ digits : ℕ, ∃ found : ℤ, b.shortest .even = ⟨b.negative, digits, found⟩ ∧ digits ≠ 0 ∧
      digits ≤ n ∧ -k ≤ found ∧ found < 14 ∧ (digits : ℝ) * 10 ^ found = n * 10 ^ (-k : ℤ) := by
  obtain ⟨digits, found, hshortest, hplaces, hvalue⟩ :=
    shortest_of_reads hb hpos .even (hn.trans (by decide)) hk h
  have hten : (0 : ℝ) < 10 ^ (-k : ℤ) := by positivity
  have hexact : (0 : ℝ) < n * 10 ^ (-k : ℤ) :=
    mul_pos (Nat.cast_pos.mpr (Nat.pos_of_ne_zero (h.digits_ne_zero hpos))) hten
  have hnonzero : digits ≠ 0 := by
    rintro rfl
    rw [Nat.cast_zero, zero_mul] at hvalue
    exact hexact.ne hvalue
  have hdigits : digits ≤ n := by
    have hle : (digits : ℝ) * 10 ^ (-k : ℤ) ≤ n * 10 ^ (-k : ℤ) := by
      rw [← hvalue]
      exact mul_le_mul_of_nonneg_left (zpow_le_zpow_right₀ (by norm_num) hplaces)
        (Nat.cast_nonneg digits)
    exact_mod_cast le_of_mul_le_mul_right hle hten
  have hfound : found < 14 := by
    have hone : (1 : ℝ) ≤ digits := by exact_mod_cast Nat.one_le_iff_ne_zero.mpr hnonzero
    have hlt : (10 : ℝ) ^ found < 10 ^ (14 : ℤ) :=
      calc (10 : ℝ) ^ found ≤ digits * 10 ^ found := le_mul_of_one_le_left (by positivity) hone
        _ = n * 10 ^ (-k : ℤ) := hvalue
        _ < 10 ^ (14 : ℤ) := lt_tenPow_of_few hn k
    exact (zpow_lt_zpow_iff_right₀ (by norm_num)).mp hlt
  exact ⟨digits, found, hshortest, hnonzero, hdigits, hplaces, hfound, hvalue⟩

/-- Such a decimal is read back with digits and a power of ten that doubles hold exactly. -/
theorem exists_respelled_of_few (hb : b.IsFinite) (hpos : 0 < b.significand) {n k : ℕ}
    (hn : n < 10 ^ 14) (hk : k ≤ 22) (h : Reads b (n * 10 ^ (-k : ℤ))) :
    ∃ d : Decimal, (JsonNumber.decimal (b.shortest .even)).respelled = .decimal d ∧
      d.negative = b.negative ∧ d.digits ≠ 0 ∧ d.digits ≤ 2 ^ 53 ∧ -22 ≤ d.exponent ∧
      d.exponent ≤ 22 ∧ (d.digits : ℝ) * 10 ^ d.exponent = n * 10 ^ (-k : ℤ) := by
  obtain ⟨digits, found, hshortest, hnonzero, hdigits, hplaces, hfound, hvalue⟩ :=
    shortest_of_few hb hpos hn hk h
  obtain ⟨zeros, hrespelled, -, hshifted⟩ :=
    exists_zeros_respelled hshortest hnonzero (by omega)
  have hscaled := mul_tenPow_mul_zpow digits zeros found
  rw [hvalue] at hscaled
  have hbounds : digits * 10 ^ zeros ≤ 2 ^ 53 ∧ -22 ≤ found - zeros ∧ found - zeros ≤ 22 := by
    rcases hshifted with rfl | hshifted
    · rw [pow_zero, mul_one]
      omega
    · refine ⟨?_, by omega, by omega⟩
      -- One place is left, so the digits are less than ten times those of the decimal.
      have hlt : ((digits * 10 ^ zeros : ℕ) : ℝ) < (10 ^ 15 : ℕ) := by
        rw [hshifted] at hscaled
        calc ((digits * 10 ^ zeros : ℕ) : ℝ) = n * 10 ^ (-k : ℤ) * 10 := by
              rw [← hscaled, mul_assoc]
              norm_num
          _ < 10 ^ (14 : ℤ) * 10 := mul_lt_mul_of_pos_right (lt_tenPow_of_few hn k) (by norm_num)
          _ = (10 ^ 15 : ℕ) := by norm_num
      exact (Nat.cast_lt.mp hlt).le.trans (by decide)
  obtain ⟨hfew, hlow, hhigh⟩ := hbounds
  exact ⟨_, hrespelled, rfl, Nat.mul_ne_zero hnonzero (by positivity), hfew, hlow, hhigh, hscaled⟩

/-- A decimal of few digits and places is scaled without an error. -/
theorem exists_toFloat?_shortest_of_reads (hb : b.IsFinite) (hpos : 0 < b.significand) {n k : ℕ}
    (hn : n < 10 ^ 14) (hk : k ≤ 22) (h : Reads b (n * 10 ^ (-k : ℤ))) :
    ∃ y, (JsonNumber.decimal (b.shortest .even)).respelled.toFloat? = some y ∧
      Denotes y b.value := by
  obtain ⟨d, hrespelled, hnegative, hnonzero, hfew, hlow, hhigh, hvalue⟩ :=
    exists_respelled_of_few hb hpos hn hk h
  obtain ⟨y, hy, hdenotes⟩ := Double.exists_scaledMagnitude?_exact hnonzero hfew hlow hhigh
  refine ⟨if b.negative then -y else y, ?_, ?_⟩
  · rw [hrespelled]
    show (Decimal.scaledMagnitude? _ _).map _ = _
    rw [hy, hnegative]
    rfl
  · have hexact : (0 : ℝ) < n * 10 ^ (-k : ℤ) :=
      mul_pos (Nat.cast_pos.mpr (Nat.pos_of_ne_zero (h.digits_ne_zero hpos))) (by positivity)
    have hround := (reads_iff hb hpos hexact).mp h
    have hlimit : Double.roundMagnitude (n * 10 ^ (-k : ℤ)) < Double.limit := by
      rw [hround]
      exact magnitude_lt_limit hb
    rw [hvalue, Double.nearest_of_roundMagnitude_lt hexact.le hlimit, hround] at hdenotes
    exact hdenotes.withSign b.negative

/-- The double nearest to a decimal that is not too small is one that the decimal reads as. -/
theorem reads_of_value_eq (hb : b.IsFinite) {negative : Bool} {r : ℝ}
    (hr : 2 ^ (-1022 : ℤ) ≤ r) (h : b.value = withSign negative (Double.roundMagnitude r)) :
    0 < b.significand ∧ Reads b r := by
  have hpos : 0 < r := (Double.two_zpow_pos _).trans_le hr
  have hround : 0 < Double.roundMagnitude r := (Double.near_roundMagnitude hr).pos hpos
  have hmagnitude : b.magnitude = Double.roundMagnitude r := by
    have habs := congrArg abs h
    unfold value at habs
    rwa [Double.abs_withSign, Double.abs_withSign, abs_of_nonneg b.magnitude_nonneg,
      abs_of_pos hround] at habs
  have hsignificand : 0 < b.significand := by
    by_contra hnone
    unfold magnitude at hmagnitude
    rw [Nat.eq_zero_of_not_pos hnone, Nat.cast_zero, zero_mul] at hmagnitude
    exact hround.ne hmagnitude
  exact ⟨hsignificand, (reads_iff hb hsignificand hpos).mpr hmagnitude.symm⟩

theorem value_ne_zero (h : 0 < b.significand) : b.value ≠ 0 := by
  unfold value
  rw [← abs_pos, Double.abs_withSign, abs_of_nonneg b.magnitude_nonneg]
  exact mul_pos (Nat.cast_pos.mpr h) (Double.two_zpow_pos _)

end Binary64

/-! ## What a double is read as -/

namespace Json

open Binary64 (magnitude value rereadError)

theorem isSome_reread? (x : Float) : (reread? x).isSome = x.isFinite := by
  cases h : x.isFinite with
  | false => rw [reread?_eq_none h, Option.isSome_none]
  | true =>
    obtain ⟨b, hb⟩ := Binary64.exists_ofFloat? h
    obtain ⟨y, v, hy, -⟩ := Binary64.exists_toFloat?_shortest (Binary64.isFinite_of_ofFloat? hb)
    rw [reread?_of_ofFloat? hb, hy, Option.isSome_some]

theorem reread?_zero : reread? 0.0 = some 0.0 := by
  rw [reread?_of_ofFloat? (b := ⟨false, 0, -1074⟩) (by decide)]
  exact Binary64.toFloat?_shortest_zero rfl .even

theorem reread?_negative_zero : reread? (-0.0) = some (-0.0) := by
  rw [reread?_of_ofFloat? (b := ⟨true, 0, -1074⟩) (by decide)]
  exact Binary64.toFloat?_shortest_zero rfl .even

/-- A finite double is read as a double that is close to it. -/
theorem exists_reread? {x : Float} (h : x.isFinite = true) :
    ∃ y, ∃ r v : ℝ, reread? x = some y ∧ Denotes x r ∧ Denotes y v ∧
      |v - r| ≤ 2 ^ (-49 : ℤ) * |r| + 2 ^ (-1073 : ℤ) := by
  obtain ⟨b, hb⟩ := Binary64.exists_ofFloat? h
  obtain ⟨y, v, hy, hv, hnear⟩ :=
    Binary64.exists_toFloat?_shortest (Binary64.isFinite_of_ofFloat? hb)
  rw [reread?_of_ofFloat? hb]
  refine ⟨y, b.value, withSign b.negative v, hy, Binary64.denotes_of_ofFloat? hb, hv, ?_⟩
  have hunit : 16 * unitRoundoff = 2 ^ (-49 : ℤ) := by
    unfold unitRoundoff
    norm_num
  have hunderflow : 4 * underflowError = 2 ^ (-1073 : ℤ) := by
    unfold underflowError
    rw [show (-1073 : ℤ) = 2 + -1075 by norm_num, zpow_add₀ two_ne_zero]
    norm_num
  have hmagnitude : |b.value| = b.magnitude := by
    unfold value
    rw [Double.abs_withSign, abs_of_nonneg b.magnitude_nonneg]
  unfold rereadError at hnear
  rw [hunit, hunderflow] at hnear
  rw [hmagnitude]
  unfold value
  rwa [Double.abs_withSign_sub]

/-- The nearest double to a decimal of few digits and places is read as itself. -/
theorem reread?_toFloat (negative : Bool) {n k : ℕ} (hn : n < 10 ^ 14) (hk : k ≤ 22) :
    reread? (Decimal.toFloat ⟨negative, n, -k⟩) = some (Decimal.toFloat ⟨negative, n, -k⟩) := by
  by_cases hzero : n = 0
  · subst hzero
    cases negative with
    | false => exact reread?_zero
    | true => exact reread?_negative_zero
  have hdenotes := Double.denotes_toFloat negative hzero (hn.trans (by decide)) hk
  obtain ⟨b, hb⟩ := Binary64.exists_ofFloat? (hdenotes.isFinite_iff.mpr ⟨_, rfl⟩)
  have hfinite := Binary64.isFinite_of_ofFloat? hb
  have hvalue := EReal.coe_injective ((Binary64.denotes_of_ofFloat? hb).unique hdenotes)
  have hlow : (2 : ℝ) ^ (-1022 : ℤ) ≤ n * 10 ^ (-k : ℤ) := by
    have hone : (1 : ℝ) ≤ n := by exact_mod_cast Nat.one_le_iff_ne_zero.mpr hzero
    calc (2 : ℝ) ^ (-1022 : ℤ) ≤ 2 ^ (-88 : ℤ) := Double.two_zpow_mono (by norm_num)
      _ ≤ 10 ^ (-22 : ℤ) := by norm_num
      _ ≤ 10 ^ (-k : ℤ) := zpow_le_zpow_right₀ (by norm_num) (by omega)
      _ ≤ n * 10 ^ (-k : ℤ) := le_mul_of_one_le_left (by positivity) hone
  obtain ⟨hpos, hreads⟩ := Binary64.reads_of_value_eq hfinite hlow hvalue
  obtain ⟨y, hy, hvalue'⟩ :=
    Binary64.exists_toFloat?_shortest_of_reads hfinite hpos hn hk hreads
  rw [reread?_of_ofFloat? hb, hy]
  exact congrArg some
    (Double.eq_of_denotes hvalue' (Binary64.denotes_of_ofFloat? hb) (Binary64.value_ne_zero hpos))

end Json

end CodeQuality
