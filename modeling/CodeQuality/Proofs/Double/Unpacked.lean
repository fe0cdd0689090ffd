import CodeQuality.Number.Binary64
import CodeQuality.Proofs.Double.Rounding

/-!
The parts of a double and the number that they make.

Arithmetic on doubles takes its arguments apart into a sign, a significand and an exponent, works
on these and packs the result again. Here the parts are related to the bits, every number is shown
to have one canonical form, and packing is shown to turn what lies beyond the finite doubles into
an infinity.
-/

namespace CodeQuality.Double

open Float.Model (Format UnpackedFloat)
open Float.Model.UnpackedFloat

/-! ## Bits -/

theorem toNat_unpackMantissa (b : BitVec 64) :
    (@unpackMantissa .binary64 b).toNat = b.toNat % 2 ^ 52 := by
  simp [unpackMantissa, BitVec.extractLsb]

theorem toNat_unpackExponent (b : BitVec 64) :
    (@unpackExponent .binary64 b).toNat = b.toNat / 2 ^ 52 % 2 ^ 11 := by
  simp [unpackExponent, BitVec.extractLsb, Nat.shiftRight_eq_div_pow]

theorem ofBitVec_unpackSign (b : BitVec 64) :
    Sign.ofBitVec (@unpackSign .binary64 b) =
      if 2 ^ 63 ≤ b.toNat then .negative else .positive := by
  have hb : b.toNat < 2 ^ 64 := b.isLt
  have hsign : (@unpackSign .binary64 b).toNat = b.toNat / 2 ^ 63 := by
    simp [unpackSign, BitVec.extractLsb, Nat.shiftRight_eq_div_pow]
    omega
  have hzero : @unpackSign .binary64 b = 0#1 ↔ b.toNat / 2 ^ 63 = 0 := by
    rw [← hsign, ← BitVec.toNat_inj, BitVec.toNat_zero]
  unfold Sign.ofBitVec
  split_ifs with h₁ h₂ h₂
  · have := hzero.mp h₁
    omega
  · rfl
  · rfl
  · exact absurd (hzero.mpr (by omega)) h₁

theorem toNat_packComponents (s : Sign) (e : BitVec 11) (m : BitVec 52) :
    (packComponents .binary64 s e m).toNat =
      s.toBitVec.toNat * 2 ^ 63 + e.toNat * 2 ^ 52 + m.toNat := by
  unfold packComponents
  rw [BitVec.toNat_append, BitVec.toNat_append, ← Nat.shiftLeft_add_eq_or_of_lt m.isLt,
    ← Nat.shiftLeft_add_eq_or_of_lt e.isLt, Nat.shiftLeft_eq, Nat.shiftLeft_eq]
  ring_nf

theorem packComponents_fields (s : Sign) (e : BitVec 11) (m : BitVec 52) :
    (if 2 ^ 63 ≤ (packComponents .binary64 s e m).toNat then Sign.negative else Sign.positive) = s ∧
      (packComponents .binary64 s e m).toNat / 2 ^ 52 % 2 ^ 11 = e.toNat ∧
      (packComponents .binary64 s e m).toNat % 2 ^ 52 = m.toNat := by
  have he : e.toNat < 2 ^ 11 := e.isLt
  have hm : m.toNat < 2 ^ 52 := m.isLt
  rw [toNat_packComponents]
  cases s with
  | negative =>
    have hbit : (Sign.toBitVec .negative).toNat = 1 := rfl
    rw [hbit, if_pos (by omega)]
    exact ⟨rfl, by omega, by omega⟩
  | positive =>
    have hbit : (Sign.toBitVec .positive).toNat = 0 := rfl
    rw [hbit, if_neg (by omega)]
    exact ⟨rfl, by omega, by omega⟩

/-! ## Canonical forms -/

/-- Doubles have significands of 53 digits, or fewer with the least exponent. Exponents have no
upper end here, since rounding finds the significand before it looks at the range. -/
def Canonical : UnpackedFloat → Prop
  | .finite _ m e _ => m < 2 ^ 53 ∧ -1074 ≤ e ∧ (2 ^ 52 ≤ m ∨ e = -1074)
  | _ => True

def InRange : UnpackedFloat → Prop
  | .finite _ _ e _ => e ≤ 971
  | _ => True

/-- The sign, the significand and the exponent of a finite number. -/
def parts? : UnpackedFloat → Option Binary64
  | .finite s m e _ => some ⟨s == .negative, m, e⟩
  | .zero s => some ⟨s == .negative, 0, -1074⟩
  | _ => none

theorem toNat_one_append (v : BitVec 52) : (1#1 ++ v).toNat = 2 ^ 52 + v.toNat := by
  rw [BitVec.toNat_append, ← Nat.shiftLeft_add_eq_or_of_lt v.isLt]
  rfl

/-- All that unpacking can give, by the biased exponent and the stored digits. -/
theorem unpack_cases (b : BitVec 64) :
    let s := if 2 ^ 63 ≤ b.toNat then Sign.negative else Sign.positive
    let biased : ℕ := b.toNat / 2 ^ 52 % 2 ^ 11
    let fraction : ℕ := b.toNat % 2 ^ 52
    biased = 2047 ∧ (unpack .binary64 b = .infinity s ∨ unpack .binary64 b = .notANumber) ∨
    biased = 0 ∧ fraction = 0 ∧ unpack .binary64 b = .zero s ∨
    biased = 0 ∧ (∃ h, unpack .binary64 b = .finite s fraction (-1074) h) ∨
    biased ≠ 0 ∧ biased ≠ 2047 ∧
      ∃ h, unpack .binary64 b = .finite s (2 ^ 52 + fraction) ((biased : ℤ) - 1075) h := by
  intro s biased fraction
  have hbias : (Format.binary64.exponentBias : ℤ) = 1023 := rfl
  have hs : Sign.ofBitVec (@unpackSign .binary64 b) = s := ofBitVec_unpackSign b
  have hfraction : (@unpackMantissa .binary64 b).toNat = fraction := toNat_unpackMantissa b
  have hbiased : (@unpackExponent .binary64 b).toNat = biased := toNat_unpackExponent b
  have hmax : @unpackExponent .binary64 b = -1#_ ↔ biased = 2047 := by
    rw [← hbiased, ← BitVec.toNat_inj]
    rfl
  have hzero : @unpackExponent .binary64 b = 0#_ ↔ biased = 0 := by
    rw [← hbiased, ← BitVec.toNat_inj]
    rfl
  have hnone : @unpackMantissa .binary64 b = 0#_ ↔ fraction = 0 := by
    rw [← hfraction, ← BitVec.toNat_inj]
    rfl
  by_cases h₁ : @unpackExponent .binary64 b = -1#_
  · refine .inl ⟨hmax.mp h₁, ?_⟩
    by_cases h₂ : @unpackMantissa .binary64 b = 0#_
    · exact .inl (by simp [unpack, h₁, h₂, hs])
    · exact .inr (by simp [unpack, h₁, h₂])
  by_cases h₂ : @unpackExponent .binary64 b = 0#_
  · by_cases h₃ : @unpackMantissa .binary64 b = 0#_
    · exact .inr (.inl ⟨hzero.mp h₂, hnone.mp h₃, by simp [unpack, h₂, h₃, hs]⟩)
    · refine .inr (.inr (.inl ⟨hzero.mp h₂, ?_, ?_⟩))
      · exact Nat.pos_of_ne_zero fun h => h₃ (hnone.mpr h)
      · simp [unpack, h₂, h₃, hs, hfraction, hbias]
  · refine .inr (.inr (.inr ⟨fun h => h₂ (hzero.mpr h), fun h => h₁ (hmax.mpr h), by omega, ?_⟩))
    simp only [unpack, h₁, h₂, if_false, hs, hbiased, hbias, toNat_one_append, hfraction]
    congr 1

theorem unpack_canonical (b : BitVec 64) :
    Canonical (unpack .binary64 b) ∧ InRange (unpack .binary64 b) := by
  rcases unpack_cases b with ⟨-, h | h⟩ | ⟨-, -, h⟩ | ⟨-, _, h⟩ | ⟨h₀, hmax, _, h⟩
  · rw [h]
    exact ⟨trivial, trivial⟩
  · rw [h]
    exact ⟨trivial, trivial⟩
  · rw [h]
    exact ⟨trivial, trivial⟩
  · rw [h]
    exact ⟨⟨by omega, by omega, .inr rfl⟩, show (-1074 : ℤ) ≤ 971 by decide⟩
  · rw [h]
    simp only [Canonical, InRange]
    omega

/-- Reading the bits of a double gives the parts that its arithmetic works on. -/
theorem ofFloat?_eq_parts? (x : Float) : Binary64.ofFloat? x = parts? x.toModel.unpack := by
  show (if x.toBits.toBitVec.toNat / 2 ^ 52 % 2 ^ 11 = 2047 then none
    else if x.toBits.toBitVec.toNat / 2 ^ 52 % 2 ^ 11 = 0 then
      some ⟨decide (2 ^ 63 ≤ x.toBits.toBitVec.toNat), x.toBits.toBitVec.toNat % 2 ^ 52, -1074⟩
    else some ⟨decide (2 ^ 63 ≤ x.toBits.toBitVec.toNat),
      2 ^ 52 + x.toBits.toBitVec.toNat % 2 ^ 52,
      ((x.toBits.toBitVec.toNat / 2 ^ 52 % 2 ^ 11 : ℕ) : ℤ) - 1075⟩) =
    parts? (unpack .binary64 x.toBits.toBitVec)
  -- Both sides look at the same fields of the bits.
  generalize x.toBits.toBitVec = b
  have hsign : decide (2 ^ 63 ≤ b.toNat) =
      ((if 2 ^ 63 ≤ b.toNat then Sign.negative else Sign.positive) == Sign.negative) := by
    split_ifs with h
    · exact decide_eq_true h
    · exact decide_eq_false h
  rcases unpack_cases b with ⟨h₀, h | h⟩ | ⟨h₀, hfraction, h⟩ | ⟨h₀, _, h⟩ | ⟨h₀, hmax, _, h⟩
  · rw [h, if_pos h₀]
    rfl
  · rw [h, if_pos h₀]
    rfl
  · rw [h, if_neg (by omega), if_pos h₀, hsign, hfraction]
    rfl
  · rw [h, if_neg (by omega), if_pos h₀, hsign]
    rfl
  · rw [h, if_neg hmax, if_neg h₀, hsign]
    rfl

/-- The parts of a finite double determine its bits. -/
theorem toNat_toBits_of_parts {x : Float} {b : Binary64} (h : Binary64.ofFloat? x = some b) :
    x.toBits.toNat = (if b.negative then 2 ^ 63 else 0) +
      (if b.significand < 2 ^ 52 then b.significand
       else (b.exponent + 1074).toNat * 2 ^ 52 + b.significand) := by
  rcases b with ⟨negative, significand, exponent⟩
  have hbits : x.toBits.toNat < 2 ^ 64 := x.toBits.toNat_lt
  change (if x.toBits.toNat / 2 ^ 52 % 2 ^ 11 = 2047 then none
    else if x.toBits.toNat / 2 ^ 52 % 2 ^ 11 = 0 then
      some ⟨decide (2 ^ 63 ≤ x.toBits.toNat), x.toBits.toNat % 2 ^ 52, -1074⟩
    else some ⟨decide (2 ^ 63 ≤ x.toBits.toNat), 2 ^ 52 + x.toBits.toNat % 2 ^ 52,
      ((x.toBits.toNat / 2 ^ 52 % 2 ^ 11 : ℕ) : ℤ) - 1075⟩ : Option Binary64) =
    some ⟨negative, significand, exponent⟩ at h
  generalize x.toBits.toNat = n at h hbits ⊢
  have hsign : (if decide (2 ^ 63 ≤ n) then 2 ^ 63 else 0) = n / 2 ^ 63 * 2 ^ 63 := by
    by_cases hn : 2 ^ 63 ≤ n
    · rw [if_pos (decide_eq_true hn)]
      omega
    · rw [if_neg (by rw [decide_eq_false hn]; decide)]
      omega
  split_ifs at h with h₁ h₂
  · obtain ⟨rfl, rfl, rfl⟩ := (Binary64.mk.injEq ..).mp (Option.some.inj h)
    dsimp only
    rw [hsign, if_pos (Nat.mod_lt n (by decide))]
    omega
  · obtain ⟨rfl, rfl, rfl⟩ := (Binary64.mk.injEq ..).mp (Option.some.inj h)
    dsimp only
    rw [hsign, if_neg (by omega)]
    omega

theorem ofFloat?_injective {x y : Float} {b : Binary64} (hx : Binary64.ofFloat? x = some b)
    (hy : Binary64.ofFloat? y = some b) : x = y := by
  have hbits : x.toBits = y.toBits :=
    UInt64.toNat_inj.mp ((toNat_toBits_of_parts hx).trans (toNat_toBits_of_parts hy).symm)
  rcases x with ⟨⟨_, _⟩⟩
  rcases y with ⟨⟨_, _⟩⟩
  congr

/-! ## Packing -/

/-- Numbers with exponents beyond the range of doubles become infinite. -/
def clip : UnpackedFloat → UnpackedFloat
  | .finite s m e h => if 971 < e then .infinity s else .finite s m e h
  | u => u

/-- A significand with its leading digit is stored without it. -/
theorem unpack_packComponents_lead (s : Sign) {m : ℕ} {e : ℤ} (hm : 0 < m) (hdigits : m < 2 ^ 53)
    (hlead : 2 ^ 52 ≤ m) (hleast : -1074 ≤ e) (hrange : e ≤ 971) :
    unpack .binary64 (packComponents .binary64 s (BitVec.ofNat 11 (e + 1075).toNat)
      (BitVec.ofNat 52 m)) = .finite s m e hm := by
  have hbiased : (BitVec.ofNat 11 (e + 1075).toNat).toNat = (e + 1075).toNat :=
    Nat.mod_eq_of_lt (by omega)
  have hfraction : (BitVec.ofNat 52 m).toNat = m % 2 ^ 52 := rfl
  obtain ⟨hs, hexp, hfrac⟩ := packComponents_fields s (BitVec.ofNat 11 (e + 1075).toNat)
    (BitVec.ofNat 52 m)
  rw [hbiased] at hexp
  rw [hfraction] at hfrac
  obtain ⟨h₀, -⟩ | ⟨h₀, -⟩ | ⟨h₀, -⟩ | ⟨-, -, _, h⟩ := unpack_cases
    (packComponents .binary64 s (BitVec.ofNat 11 (e + 1075).toNat) (BitVec.ofNat 52 m))
  · omega
  · omega
  · omega
  · rw [h]
    congr 1 <;> omega

/-- Without a leading digit the exponent is the least one, which is stored as zero. -/
theorem unpack_packComponents_least (s : Sign) {m : ℕ} (hm : 0 < m) (hlow : m < 2 ^ 52) :
    unpack .binary64 (packComponents .binary64 s 0#11 (BitVec.ofNat 52 m)) =
      .finite s m (-1074) hm := by
  have hfraction : (BitVec.ofNat 52 m).toNat = m % 2 ^ 52 := rfl
  obtain ⟨hs, hexp, hfrac⟩ := packComponents_fields s 0#11 (BitVec.ofNat 52 m)
  rw [BitVec.toNat_zero] at hexp
  rw [hfraction] at hfrac
  obtain ⟨h₀, -⟩ | ⟨-, h₀, -⟩ | ⟨-, _, h⟩ | ⟨h₀, -⟩ := unpack_cases
    (packComponents .binary64 s 0#11 (BitVec.ofNat 52 m))
  · omega
  · omega
  · rw [h]
    congr 1
    omega
  · omega

theorem unpack_pack {u : UnpackedFloat} (hu : Canonical u) :
    unpack .binary64 (pack .binary64 u) = clip u := by
  cases u with
  | notANumber => rfl
  | infinity s => cases s <;> rfl
  | zero s => cases s <;> rfl
  | finite s m e hm =>
    rcases hu with ⟨hdigits, hleast, hlead⟩
    have hbias : (e + (Format.binary64.exponentBias : ℤ) + ((52 : ℕ) : ℤ)).toNat =
        (e + 1075).toNat := by
      have : (Format.binary64.exponentBias : ℤ) = 1023 := rfl
      omega
    have hlog : m.log2 + 1 = Format.binary64.mantissaBits ↔ 2 ^ 52 ≤ m := by
      have h52 := Nat.le_log2 (k := 52) hm.ne'
      have h53 := Nat.log2_lt (k := 53) hm.ne'
      have : Format.binary64.mantissaBits = 53 := rfl
      omega
    unfold clip pack
    simp only [hbias, hlog]
    by_cases hrange : 971 < e
    · -- Exponents beyond the range are packed as an infinity.
      rw [if_pos hrange, if_pos (by simp; omega)]
      cases s <;> rfl
    rw [if_neg hrange, if_neg (by simp; omega)]
    by_cases hlow : 2 ^ 52 ≤ m
    · rw [if_pos hlow]
      exact unpack_packComponents_lead s hm hdigits hlow hleast (by omega)
    · obtain rfl : e = -1074 := hlead.resolve_left hlow
      rw [if_neg hlow]
      exact unpack_packComponents_least s hm (by omega)

theorem Canonical.value_clip {s : Sign} {m : ℕ} {e : ℤ} {hm : 0 < m}
    (h : Canonical (.finite s m e hm)) :
    value (clip (.finite s m e hm)) = overflow (signed s (m * 2 ^ e)) := by
  rcases h with ⟨hdigits, -, hlead⟩
  have hpos := mul_zpow_pos hm e
  have hlimit := limit_pos
  show value (if 971 < e then .infinity s else .finite s m e hm) = _
  by_cases hrange : 971 < e
  · -- Above the least exponent a significand has its leading digit, which alone is the limit.
    have hle : limit ≤ m * 2 ^ e := by
      calc limit ≤ 2 ^ (e + 52) := two_zpow_mono (by omega)
        _ ≤ m * 2 ^ e := zpow_le_mul_zpow (hlead.resolve_right (by omega)) e
    rw [if_pos hrange]
    cases s with
    | negative =>
      rw [signed_neg, overflow_of_le_neg_limit (by linarith)]
      rfl
    | positive =>
      rw [signed_pos, overflow_of_limit_le hle]
      rfl
  · have hlt : (m : ℝ) * 2 ^ e < limit := by
      calc (m : ℝ) * 2 ^ e < 2 ^ (e + 53) := mul_zpow_lt hdigits e
        _ ≤ limit := two_zpow_mono (by omega)
    rw [if_neg hrange]
    cases s with
    | negative =>
      rw [signed_neg, overflow_of_abs_lt (by rw [abs_neg, abs_of_pos hpos]; exact hlt)]
      rfl
    | positive =>
      rw [signed_pos, overflow_of_abs_lt (by rw [abs_of_pos hpos]; exact hlt)]
      rfl

end CodeQuality.Double
