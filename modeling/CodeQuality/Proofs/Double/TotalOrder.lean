import CodeQuality.Proofs.Double.Order
import CodeQuality.Proofs.Double.Bits

/-!
The order that places every double.

The key of a double counts its place from the bits. The order of keys is the order of numbers, with
two additions: the negative zero is below the positive one, and what is no number is below or above
all numbers, by its sign, and among its like by its digits. No two doubles share a place.
-/

namespace CodeQuality.DoubleBits

open Float.Model (Format UnpackedFloat)
open Float.Model.UnpackedFloat
open Double

/-! ## Places -/

/-- The place of a number from zero on. Leaving out the leading digit of a significand and counting
its exponent above it makes the places of neighbours follow each other. -/
def placeOf (m : ℕ) (e : ℤ) : ℕ :=
  if m < 2 ^ 52 then m else (e + 1074).toNat * 2 ^ 52 + m

-- Numbers below zero have the places from -1 down.
def signedPlace : Sign → ℕ → ℤ
  | .positive, n => n
  | .negative, n => -1 - n

def place : UnpackedFloat → ℤ
  | .zero s => signedPlace s 0
  | .finite s m e _ => signedPlace s (placeOf m e)
  | .infinity s => signedPlace s (2047 * 2 ^ 52)
  | .notANumber => 2047 * 2 ^ 52 + 2 ^ 51

theorem placeOf_pos {m : ℕ} (hm : 0 < m) (e : ℤ) : 0 < placeOf m e := by
  unfold placeOf
  split_ifs <;> omega

theorem placeOf_lt {m : ℕ} {e : ℤ} (hm : m < 2 ^ 53) (he : e ≤ 971) :
    placeOf m e < 2047 * 2 ^ 52 := by
  unfold placeOf
  split_ifs <;> omega

/-- Greater magnitudes have greater places. -/
theorem placeOf_lt_placeOf {s t : Sign} {m n : ℕ} {e f : ℤ} {hm : 0 < m} {hn : 0 < n}
    (hu : Canonical (.finite s m e hm)) (hv : Canonical (.finite t n f hn))
    (h : (m : ℝ) * 2 ^ e < n * 2 ^ f) : placeOf m e < placeOf n f := by
  have hparts : (compare e f).then (compare m n) = .lt := by
    rw [compare_parts hu hv, (cmp_eq_lt_iff ..).mpr h]
  rw [Ordering.then_eq_lt, compare_lt_iff_lt, compare_eq_iff_eq, compare_lt_iff_lt] at hparts
  obtain ⟨hdigits, hleast, hlead⟩ := hu
  obtain ⟨hdigits', hleast', hlead'⟩ := hv
  unfold placeOf
  rcases hparts with hlt | ⟨rfl, hlt⟩ <;> split_ifs <;> omega

theorem place_finite_lt {s t : Sign} {m n : ℕ} {e f : ℤ} {hm : 0 < m} {hn : 0 < n}
    (hu : Canonical (.finite s m e hm)) (hv : Canonical (.finite t n f hn))
    (h : signed s (m * 2 ^ e) < signed t (n * 2 ^ f)) :
    place (.finite s m e hm) < place (.finite t n f hn) := by
  have hm' := mul_zpow_pos hm e
  have hn' := mul_zpow_pos hn f
  simp only [place]
  cases s with
  | negative =>
    cases t with
    | negative =>
      -- Among negative numbers the order of magnitudes is the other way round.
      rw [signed_neg, signed_neg] at h
      have hplace := placeOf_lt_placeOf hv hu (neg_lt_neg_iff.mp h)
      simp only [signedPlace]
      omega
    | positive =>
      simp only [signedPlace]
      omega
  | positive =>
    cases t with
    | negative =>
      rw [signed_neg, signed_pos] at h
      linarith
    | positive =>
      rw [signed_pos, signed_pos] at h
      have hplace := placeOf_lt_placeOf hu hv h
      simp only [signedPlace]
      omega

/-- A greater number has a greater place. -/
theorem place_lt_of_value_lt {u v : UnpackedFloat} (hu : IsNumber u) (hv : IsNumber v)
    (h : value u < value v) : place u < place v := by
  cases u with
  | notANumber => exact absurd rfl hu.ne_notANumber
  | infinity s =>
    cases s with
    | positive => exact absurd h not_top_lt
    | negative =>
      cases v with
      | notANumber => exact absurd rfl hv.ne_notANumber
      | infinity t => cases t <;> simp_all [value, place, signedPlace]
      | zero t => cases t <;> simp [place, signedPlace]
      | finite t n f hn =>
        have hlt := placeOf_lt hv.canonical.1 hv.inRange
        cases t <;> simp only [place, signedPlace] <;> omega
  | zero s =>
    cases v with
    | notANumber => exact absurd rfl hv.ne_notANumber
    | infinity t => cases s <;> cases t <;> simp_all [value, place, signedPlace]
    | zero t => exact absurd h (lt_irrefl _)
    | finite t n f hn =>
      have hpos := placeOf_pos hn f
      cases t with
      | negative => exact absurd h (by simp [value, signed]; positivity)
      | positive => cases s <;> simp only [place, signedPlace] <;> omega
  | finite s m e hm =>
    have hpos := placeOf_pos hm e
    have hlt := placeOf_lt hu.canonical.1 hu.inRange
    cases v with
    | notANumber => exact absurd rfl hv.ne_notANumber
    | infinity t =>
      cases t with
      | negative => exact absurd h not_lt_bot
      | positive => cases s <;> simp only [place, signedPlace] <;> omega
    | zero t =>
      cases s with
      | negative => cases t <;> simp only [place, signedPlace] <;> omega
      | positive => exact absurd h (by simp [value, signed]; positivity)
    | finite t n f hn => exact place_finite_lt hu.canonical hv.canonical (EReal.coe_lt_coe_iff.mp h)

/-- The order of places is the order of numbers, the negative zero before the positive one. -/
theorem place_lt_iff {u v : UnpackedFloat} (hu : IsNumber u) (hv : IsNumber v) :
    place u < place v ↔ value u < value v ∨ u = .zero .negative ∧ v = .zero .positive := by
  constructor
  · intro h
    rcases lt_trichotomy (value u) (value v) with hlt | heq | hgt
    · exact .inl hlt
    · by_cases hzero : value u = 0
      · obtain ⟨s, rfl⟩ := hu.eq_zero hzero
        obtain ⟨t, rfl⟩ := hv.eq_zero (heq ▸ hzero)
        cases s <;> cases t <;> simp_all [place, signedPlace]
      · rw [eq_of_value_eq hu hv heq hzero] at h
        exact absurd h (lt_irrefl _)
    · exact absurd h (place_lt_of_value_lt hv hu hgt).not_gt
  · rintro (h | ⟨rfl, rfl⟩)
    · exact place_lt_of_value_lt hu hv h
    · decide

/-! ## Bits -/

theorem toNat_toBits_of_infinity {x : Float} {s : Sign} (h : x.toModel.unpack = .infinity s) :
    x.toBits.toNat = (if s == .negative then 2 ^ 63 else 0) + 2047 * 2 ^ 52 := by
  have hbits : x.toBits.toBitVec.toNat < 2 ^ 64 := x.toBits.toBitVec.isLt
  change unpack .binary64 x.toBits.toBitVec = .infinity s at h
  show x.toBits.toBitVec.toNat = _
  generalize x.toBits.toBitVec = b at h hbits ⊢
  have hfraction := toNat_unpackMantissa b
  have hbiased := toNat_unpackExponent b
  have hsign := ofBitVec_unpackSign b
  by_cases h₁ : @unpackExponent .binary64 b = -1#_
  · by_cases h₂ : @unpackMantissa .binary64 b = 0#_
    · simp only [unpack, h₁, h₂, if_true, UnpackedFloat.infinity.injEq] at h
      rw [h] at hsign
      rw [h₁] at hbiased
      rw [h₂] at hfraction
      change 0 = _ at hfraction
      change 2047 = _ at hbiased
      cases s with
      | negative =>
        have hlow : 2 ^ 63 ≤ b.toNat := by
          by_contra hlow
          rw [if_neg hlow] at hsign
          exact Sign.noConfusion hsign
        rw [if_pos (show (Sign.negative == .negative) = true from rfl)]
        omega
      | positive =>
        have hhigh : ¬ 2 ^ 63 ≤ b.toNat := by
          intro hhigh
          rw [if_pos hhigh] at hsign
          exact Sign.noConfusion hsign
        rw [if_neg (show ¬ (Sign.positive == .negative) = true from Bool.false_ne_true)]
        omega
    · simp [unpack, h₁, h₂] at h
  · by_cases h₂ : @unpackExponent .binary64 b = 0#_
    · by_cases h₃ : @unpackMantissa .binary64 b = 0#_ <;> simp [unpack, h₂, h₃] at h
    · simp only [unpack, h₁, h₂, if_false, reduceCtorEq] at h

theorem totalOrderKey_eq_ite (d : DoubleBits) :
    d.totalOrderKey =
      if d.word.toNat < 2 ^ 63 then (d.word.toNat : ℤ) else 2 ^ 63 - 1 - d.word.toNat := rfl

/-- The key is the place. -/
theorem totalOrderKey_ofFloat (x : Float) :
    (ofFloat x).totalOrderKey = place x.toModel.unpack := by
  have hkey : ∀ (s : Sign) (n : ℕ), n < 2 ^ 63 →
      x.toBits.toNat = (if s == .negative then 2 ^ 63 else 0) + n →
      (ofFloat x).totalOrderKey = signedPlace s n := by
    intro s n hn hbits
    rw [totalOrderKey_eq_ite, show (ofFloat x).word.toNat = _ from hbits]
    cases s with
    | negative =>
      rw [if_pos (show (Sign.negative == .negative) = true from rfl), if_neg (by omega)]
      simp only [signedPlace]
      omega
    | positive =>
      rw [if_neg (show ¬ (Sign.positive == .negative) = true from Bool.false_ne_true),
        if_pos (by omega), Nat.zero_add]
      rfl
  have hparts := ofFloat?_eq_parts? x
  have hcanonical := unpack_canonical x.toModel.toBits.toBitVec
  change Canonical x.toModel.unpack ∧ InRange x.toModel.unpack at hcanonical
  cases hu : x.toModel.unpack with
  | notANumber =>
    have hbits : x.toBits.toBitVec = packedNaN .binary64 :=
      (unpack_eq_notANumber_iff_of_valid x.toModel.valid).mp hu
    have hnat : x.toBits.toNat = 2047 * 2 ^ 52 + 2 ^ 51 := congrArg BitVec.toNat hbits
    rw [totalOrderKey_eq_ite, show (ofFloat x).word.toNat = _ from hnat]
    rfl
  | infinity s => exact hkey s _ (by omega) (toNat_toBits_of_infinity hu)
  | zero s =>
    rw [hu] at hparts
    have hbits := toNat_toBits_of_parts hparts
    rw [if_pos (show (0 : ℕ) < 2 ^ 52 by decide)] at hbits
    exact hkey s 0 (by omega) hbits
  | finite s m e hm =>
    rw [hu] at hparts hcanonical
    have hlt := placeOf_lt hcanonical.1.1 hcanonical.2
    exact hkey s (placeOf m e) (by omega) (toNat_toBits_of_parts hparts)

/-- No two doubles share a place. -/
theorem totalOrderKey_inj {x y : DoubleBits} : x.totalOrderKey = y.totalOrderKey ↔ x = y := by
  refine ⟨fun h => ?_, congrArg totalOrderKey⟩
  have hx : x.word.toNat < 2 ^ 64 := x.word.toNat_lt
  have hy : y.word.toNat < 2 ^ 64 := y.word.toNat_lt
  rw [totalOrderKey_eq_ite, totalOrderKey_eq_ite] at h
  have hword : x.word = y.word := by
    apply UInt64.toNat_inj.mp
    split_ifs at h <;> omega
  exact congrArg DoubleBits.mk hword

/-! ## What is no number -/

/-- The digits of what is no number, with its sign. Numbers have none. -/
def signedPayload (d : DoubleBits) : ℤ :=
  if d.isNaN then
    let digits : ℕ := d.word.toNat % 2 ^ 52
    if d.word.toNat < 2 ^ 63 then digits else -digits
  else 0

theorem signedPayload_of_number {d : DoubleBits} (h : d.isNaN = false) : d.signedPayload = 0 :=
  if_neg (ne_true_of_eq_false h)

/-- Numbers lie between the two infinities. -/
theorem totalOrderKey_of_number {d : DoubleBits} (h : d.isNaN = false) :
    -1 - 2047 * 2 ^ 52 ≤ d.totalOrderKey ∧ d.totalOrderKey ≤ 2047 * 2 ^ 52 := by
  have hlt : d.word.toNat < 2 ^ 64 := d.word.toNat_lt
  have hparts : ¬ (d.word.toNat / 2 ^ 52 % 2 ^ 11 = 2047 ∧ d.word.toNat % 2 ^ 52 ≠ 0) :=
    isNaN_eq_true_iff.not.mp (ne_true_of_eq_false h)
  rw [totalOrderKey_eq_ite]
  split_ifs <;> omega

/-- What is no number lies beyond the infinity of its sign, as far as its digits say. -/
theorem totalOrderKey_of_isNaN {d : DoubleBits} (h : d.isNaN = true) :
    0 < d.signedPayload ∧ d.totalOrderKey = 2047 * 2 ^ 52 + d.signedPayload ∨
      d.signedPayload < 0 ∧ d.totalOrderKey = -1 - 2047 * 2 ^ 52 + d.signedPayload := by
  have hlt : d.word.toNat < 2 ^ 64 := d.word.toNat_lt
  obtain ⟨hbiased, hdigits⟩ := isNaN_eq_true_iff.mp h
  have hpayload : d.signedPayload = if d.word.toNat < 2 ^ 63 then ((d.word.toNat % 2 ^ 52 : ℕ) : ℤ)
      else -(d.word.toNat % 2 ^ 52 : ℕ) := if_pos h
  rw [hpayload, totalOrderKey_eq_ite]
  split_ifs
  · exact .inl (by omega)
  · exact .inr (by omega)

/-! ## The order -/

/-- The order in which every double has its place. Numbers stand by their size, the negative zero
before the positive one. What is no number stands before all numbers or after them, by its sign, and
the further from them the greater its digits are. -/
def Precedes (x y : DoubleBits) : Prop :=
  x.signedPayload < y.signedPayload ∨
    x.isNaN = false ∧ y.isNaN = false ∧
      (x.toFloat < y.toFloat ∨ x.toFloat = -0.0 ∧ y.toFloat = 0.0)

-- Numbers compare as their places do.
theorem totalOrderKey_ofFloat_lt_iff {x y : Float} (hx : x.isNaN = false) (hy : y.isNaN = false) :
    (ofFloat x).totalOrderKey < (ofFloat y).totalOrderKey ↔ x < y ∨ x = -0.0 ∧ y = 0.0 := by
  obtain ⟨u, hu⟩ := exists_denotes hx
  obtain ⟨v, hv⟩ := exists_denotes hy
  have hnegative : x.toModel.unpack = .zero .negative ↔ x = -0.0 :=
    ⟨fun h => eq_of_unpack_eq h, fun h => h ▸ rfl⟩
  have hpositive : y.toModel.unpack = .zero .positive ↔ y = 0.0 :=
    ⟨fun h => eq_of_unpack_eq h, fun h => h ▸ rfl⟩
  rw [totalOrderKey_ofFloat, totalOrderKey_ofFloat, place_lt_iff hu.isNumber hv.isNumber,
    hnegative, hpositive, hu.value_eq, hv.value_eq, ← hu.lt_iff hv]

/-- The order of keys is the order of places. -/
theorem totalOrderKey_lt_iff (x y : DoubleBits) :
    x.totalOrderKey < y.totalOrderKey ↔ Precedes x y := by
  unfold Precedes
  cases hx : x.isNaN with
  | true =>
    rw [or_iff_left (fun h => Bool.noConfusion h.1)]
    have hkey := totalOrderKey_of_isNaN hx
    cases hy : y.isNaN with
    | true =>
      have hkey' := totalOrderKey_of_isNaN hy
      omega
    | false =>
      have hkey' := totalOrderKey_of_number hy
      have hpayload := signedPayload_of_number hy
      omega
  | false =>
    have hpayload := signedPayload_of_number hx
    cases hy : y.isNaN with
    | true =>
      rw [or_iff_left (fun h => Bool.noConfusion h.2.1)]
      have hkey := totalOrderKey_of_number hx
      have hkey' := totalOrderKey_of_isNaN hy
      omega
    | false =>
      rw [hpayload, signedPayload_of_number hy, or_iff_right (lt_irrefl 0), and_iff_right rfl,
        and_iff_right rfl, ← totalOrderKey_ofFloat_lt_iff, ofFloat_toFloat hx, ofFloat_toFloat hy]
      · rw [isNaN_toFloat, hx]
      · rw [isNaN_toFloat, hy]

-- From what is no number and has a sign, over the infinities and the zeros, to what has none.
example : [0xFFF8000000000000, 0xFFF0000000000001, 0xFFF0000000000000, 0x8000000000000000, 0,
    0x7FF0000000000000, 0x7FF0000000000001, 0x7FF8000000000000].Pairwise fun x y =>
      (⟨x⟩ : DoubleBits).totalOrderKey < (⟨y⟩ : DoubleBits).totalOrderKey := by
  decide

/-- Among numbers above zero the order of keys is the order of numbers. -/
theorem totalOrderKey_mono {x y : Float} (hx : 0.0 < x) (h : x ≤ y) :
    (ofFloat x).totalOrderKey ≤ (ofFloat y).totalOrderKey := by
  obtain ⟨hx', hy'⟩ := isNaN_eq_false_of_le h
  rw [← not_lt, totalOrderKey_ofFloat_lt_iff hy' hx']
  rintro (hlt | ⟨rfl, rfl⟩)
  · exact not_lt_self y (Double.lt_of_lt_of_le hlt h)
  · exact not_lt_self _ hx

end CodeQuality.DoubleBits
