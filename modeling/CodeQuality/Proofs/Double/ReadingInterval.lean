import CodeQuality.Number.Shortest
import CodeQuality.Proofs.Double.Roundoff

/-!
The numbers that read as a double.

They make an interval that reaches half way to the two neighbours, and the ends belong to it when
the significand is even. These are just the numbers whose nearest double it is.
-/

namespace CodeQuality

namespace Binary64

/-! ## The parts of a double -/

/-- The parts of a finite double. -/
structure IsFinite (b : Binary64) : Prop where
  digits : b.significand < 2 ^ 53
  least : -1074 ≤ b.exponent
  highest : b.exponent ≤ 971
  lead : 2 ^ 52 ≤ b.significand ∨ b.exponent = -1074

/-- The number without its sign. -/
noncomputable def magnitude (b : Binary64) : ℝ := b.significand * 2 ^ b.exponent

noncomputable def value (b : Binary64) : ℝ := Double.withSign b.negative b.magnitude

theorem unpack_of_ofFloat? {x : Float} {b : Binary64} (h : ofFloat? x = some b) :
    (∃ s m e hm, x.toModel.unpack = .finite s m e hm ∧ b = ⟨s == .negative, m, e⟩) ∨
      ∃ s, x.toModel.unpack = .zero s ∧ b = ⟨s == .negative, 0, -1074⟩ := by
  rw [Double.ofFloat?_eq_parts?] at h
  cases hu : x.toModel.unpack with
  | finite s m e hm =>
    rw [hu] at h
    exact .inl ⟨s, m, e, hm, rfl, (Option.some.inj h).symm⟩
  | zero s =>
    rw [hu] at h
    exact .inr ⟨s, rfl, (Option.some.inj h).symm⟩
  | infinity s =>
    rw [hu] at h
    cases h
  | notANumber =>
    rw [hu] at h
    cases h

theorem denotes_of_ofFloat? {x : Float} {b : Binary64} (h : ofFloat? x = some b) :
    Double.Denotes x b.value := by
  have hbits := Double.unpack_canonical x.toModel.toBits.toBitVec
  rcases unpack_of_ofFloat? h with ⟨s, m, e, hm, hu, rfl⟩ | ⟨s, hu, rfl⟩
  · refine ⟨⟨?_, hbits.1, hbits.2⟩, ?_⟩
    · rw [hu]
      exact Float.Model.UnpackedFloat.noConfusion
    · rw [hu]
      cases s <;> rfl
  · refine ⟨⟨?_, hbits.1, hbits.2⟩, ?_⟩
    · rw [hu]
      exact Float.Model.UnpackedFloat.noConfusion
    · rw [hu, show Double.value (.zero s) = ((0 : ℝ) : EReal) from rfl]
      cases s <;> simp [value, Double.withSign, magnitude]

theorem isFinite_of_ofFloat? {x : Float} {b : Binary64} (h : ofFloat? x = some b) :
    b.IsFinite := by
  have hnumber := (denotes_of_ofFloat? h).isNumber
  rcases unpack_of_ofFloat? h with ⟨s, m, e, hm, hu, rfl⟩ | ⟨s, -, rfl⟩
  · rw [hu] at hnumber
    obtain ⟨hdigits, hleast, hlead⟩ := hnumber.canonical
    exact ⟨hdigits, hleast, hnumber.inRange, hlead⟩
  · exact ⟨by norm_num, le_rfl, by norm_num, .inr rfl⟩

theorem isSome_ofFloat? (x : Float) : (ofFloat? x).isSome = x.isFinite := by
  rw [Double.ofFloat?_eq_parts?]
  show _ = x.toModel.unpack.isFinite
  cases x.toModel.unpack <;> rfl

theorem exists_ofFloat? {x : Float} (h : x.isFinite = true) : ∃ b, ofFloat? x = some b := by
  rw [← isSome_ofFloat?] at h
  exact Option.isSome_iff_exists.mp h

/-! ## The numbers that read as a double -/

noncomputable def leastReading (b : Binary64) : ℝ := b.readingInterval.1 * 2 ^ (b.exponent - 2)

noncomputable def greatestReading (b : Binary64) : ℝ :=
  b.readingInterval.2.2 * 2 ^ (b.exponent - 2)

/-- A number of the interval around a double. The ends belong to it when the significand is
even. -/
structure Reads (b : Binary64) (v : ℝ) : Prop where
  above : b.leastReading < v ∨ b.significand % 2 = 0 ∧ b.leastReading = v
  below : v < b.greatestReading ∨ b.significand % 2 = 0 ∧ v = b.greatestReading

theorem magnitude_eq (b : Binary64) :
    b.magnitude = (b.readingInterval.2.1 : ℝ) * 2 ^ (b.exponent - 2) := by
  show _ = ((4 * b.significand : ℕ) : ℝ) * _
  unfold magnitude
  rw [zpow_sub₀ two_ne_zero]
  push_cast
  norm_num
  ring

theorem leastReading_lt {b : Binary64} (h : 0 < b.significand) : b.leastReading < b.magnitude := by
  rw [magnitude_eq]
  unfold leastReading
  apply mul_lt_mul_of_pos_right _ (Double.two_zpow_pos _)
  have hlt : b.readingInterval.1 < b.readingInterval.2.1 := by
    show 4 * b.significand - (if b.significand = twoPow 52 ∧ -1074 < b.exponent then 1 else 2) <
      4 * b.significand
    split_ifs <;> omega
  exact_mod_cast hlt

theorem lt_greatestReading (b : Binary64) : b.magnitude < b.greatestReading := by
  rw [magnitude_eq]
  unfold greatestReading
  apply mul_lt_mul_of_pos_right _ (Double.two_zpow_pos _)
  have hlt : b.readingInterval.2.1 < b.readingInterval.2.2 := by
    show 4 * b.significand < 4 * b.significand + 2
    omega
  exact_mod_cast hlt

theorem greatestReading_eq (b : Binary64) :
    b.greatestReading = (b.significand + 1 / 2) * 2 ^ b.exponent := by
  show ((4 * b.significand + 2 : ℕ) : ℝ) * _ = _
  rw [zpow_sub₀ two_ne_zero]
  push_cast
  norm_num
  ring

theorem Reads.le_greatest {b : Binary64} {v : ℝ} (h : Reads b v) : v ≤ b.greatestReading := by
  rcases h.below with hlt | ⟨-, heq⟩
  · exact hlt.le
  · exact heq.le

theorem Reads.least_le {b : Binary64} {v : ℝ} (h : Reads b v) : b.leastReading ≤ v := by
  rcases h.above with hlt | ⟨-, heq⟩
  · exact hlt.le
  · exact heq.le

theorem leastReading_pos {b : Binary64} (hpos : 0 < b.significand) : 0 < b.leastReading := by
  have hleast : 0 < b.readingInterval.1 := by
    show 0 < 4 * b.significand -
      (if b.significand = twoPow 52 ∧ -1074 < b.exponent then 1 else 2)
    split_ifs <;> omega
  exact Double.mul_zpow_pos hleast _

/-- What reads as a double is at most half of the distance between doubles away from it. -/
theorem Reads.abs_sub_magnitude_le {b : Binary64} {v : ℝ} (h : Reads b v) :
    |v - b.magnitude| ≤ 2 ^ (b.exponent - 1) := by
  have hhalf : (2 : ℝ) ^ (b.exponent - 1) = 2 * 2 ^ (b.exponent - 2) := by
    rw [← zpow_one_add₀ two_ne_zero]
    congr 1
    omega
  have hleast : b.magnitude - 2 * 2 ^ (b.exponent - 2) ≤ b.leastReading := by
    have hstep : b.readingInterval.2.1 ≤ b.readingInterval.1 + 2 := by
      show 4 * b.significand ≤ 4 * b.significand -
        (if b.significand = twoPow 52 ∧ -1074 < b.exponent then 1 else 2) + 2
      split_ifs <;> omega
    have hcast : (b.readingInterval.2.1 : ℝ) ≤ b.readingInterval.1 + 2 := by exact_mod_cast hstep
    have hscaled := mul_le_mul_of_nonneg_right hcast (Double.two_zpow_pos (b.exponent - 2)).le
    rw [magnitude_eq]
    unfold leastReading
    linarith
  have hgreatest : b.greatestReading = b.magnitude + 2 * 2 ^ (b.exponent - 2) := by
    rw [magnitude_eq]
    show ((4 * b.significand + 2 : ℕ) : ℝ) * _ = ((4 * b.significand : ℕ) : ℝ) * _ + _
    push_cast
    ring
  rw [abs_le, hhalf]
  constructor
  · linarith [h.least_le]
  · linarith [h.le_greatest]

theorem Reads.abs_sub_le_error {b : Binary64} (hb : b.IsFinite) {v : ℝ} (h : Reads b v) :
    |v - b.magnitude| ≤ Double.unitRoundoff * b.magnitude + Double.underflowError := by
  have hunit := Double.unitRoundoff_pos
  have hunderflow := Double.underflowError_pos
  have hpos : 0 ≤ b.magnitude := mul_nonneg (Nat.cast_nonneg _) (Double.two_zpow_pos _).le
  apply h.abs_sub_magnitude_le.trans
  rcases hb.lead with hlead | hleast
  · have hle : (2 : ℝ) ^ (b.exponent - 1) ≤ Double.unitRoundoff * b.magnitude := by
      have hsplit : (2 : ℝ) ^ (b.exponent - 1) = Double.unitRoundoff * 2 ^ (b.exponent + 52) := by
        unfold Double.unitRoundoff
        rw [← zpow_add₀ two_ne_zero]
        congr 1
        omega
      rw [hsplit]
      exact mul_le_mul_of_nonneg_left (Double.zpow_le_mul_zpow hlead b.exponent) hunit.le
    linarith
  · have heq : (2 : ℝ) ^ (b.exponent - 1) = Double.underflowError := by
      rw [hleast]
      rfl
    linarith [mul_nonneg hunit.le hpos]

end Binary64

namespace Double

/-! ## The nearest double -/

/-- The nearest natural number is at most a half away, and even where it is exactly a half. -/
theorem nearestEven_spec {q : ℝ} (hq : 0 ≤ q) :
    ((nearestEven q : ℝ) - 1 / 2 < q ∨ nearestEven q % 2 = 0 ∧ (nearestEven q : ℝ) - 1 / 2 = q) ∧
      (q < nearestEven q + 1 / 2 ∨ nearestEven q % 2 = 0 ∧ q = nearestEven q + 1 / 2) := by
  have hfloor := Nat.floor_le hq
  have hceil := Nat.lt_floor_add_one q
  unfold nearestEven
  split_ifs with hlow hhalf
  · exact ⟨.inl (by linarith), .inl (by linarith)⟩
  · rcases Nat.mod_two_eq_zero_or_one ⌊q⌋₊ with heven | hodd
    · rw [heven, add_zero]
      exact ⟨.inl (by linarith), .inr ⟨heven, by linarith⟩⟩
    · rw [hodd]
      push_cast
      exact ⟨.inr ⟨by omega, by linarith⟩, .inl (by linarith)⟩
  · have hmore : 1 / 2 < q - ⌊q⌋₊ := lt_of_le_of_ne (not_lt.mp hlow) (Ne.symm hhalf)
    push_cast
    exact ⟨.inl (by linarith), .inl (by linarith)⟩

theorem nearestEven_eq_of_le {q : ℝ} (hq : 0 ≤ q) {n : ℕ} (hle : (n : ℝ) ≤ q)
    (hhigh : q < n + 1 / 2 ∨ n % 2 = 0 ∧ q = n + 1 / 2) : nearestEven q = n := by
  have hhigh' : q ≤ n + 1 / 2 := by
    rcases hhigh with h | ⟨-, h⟩
    · exact h.le
    · exact h.le
  have heq : ⌊q⌋₊ = n := (Nat.floor_eq_iff hq).mpr ⟨hle, by linarith⟩
  unfold nearestEven
  rw [heq]
  rcases hhigh with h | ⟨heven, h⟩
  · rw [if_pos (by linarith)]
  · rw [if_neg (by linarith), if_pos (by linarith), heven, add_zero]

theorem nearestEven_eq_of_lt {q : ℝ} (hq : 0 ≤ q) {n : ℕ} (hlt : q < n)
    (hlow : (n : ℝ) - 1 / 2 < q ∨ n % 2 = 0 ∧ (n : ℝ) - 1 / 2 = q) : nearestEven q = n := by
  have hlow' : (n : ℝ) - 1 / 2 ≤ q := by
    rcases hlow with h | ⟨-, h⟩
    · exact h.le
    · exact h.le
  have hpos : 0 < n := by
    have hcast : (0 : ℝ) < n := hq.trans_lt hlt
    exact_mod_cast hcast
  obtain ⟨m, rfl⟩ : ∃ m, n = m + 1 := ⟨n - 1, by omega⟩
  push_cast at hlow hlow' hlt
  have heq : ⌊q⌋₊ = m := (Nat.floor_eq_iff hq).mpr ⟨by linarith, hlt⟩
  unfold nearestEven
  rw [heq, if_neg (by linarith)]
  rcases hlow with h | ⟨heven, h⟩
  · rw [if_neg (by linarith)]
  · rw [if_pos (by linarith)]
    omega

/-- A number is rounded to the whole number at most a half away, and over just a half to the even
one. -/
theorem nearestEven_eq_iff {q : ℝ} (hq : 0 ≤ q) (n : ℕ) :
    nearestEven q = n ↔
      ((n : ℝ) - 1 / 2 < q ∨ n % 2 = 0 ∧ (n : ℝ) - 1 / 2 = q) ∧
        (q < n + 1 / 2 ∨ n % 2 = 0 ∧ q = n + 1 / 2) := by
  constructor
  · rintro rfl
    exact nearestEven_spec hq
  · rintro ⟨hlow, hhigh⟩
    rcases le_or_gt (n : ℝ) q with hle | hlt
    · exact nearestEven_eq_of_le hq hle hhigh
    · exact nearestEven_eq_of_lt hq hlt hlow

theorem spacing_eq {x : ℝ} {e : ℤ} (he : -1074 ≤ e) (hx : 0 < x)
    (hlow : 2 ^ (e + 52) ≤ x ∨ e = -1074) (hhigh : x < 2 ^ (e + 53)) : spacing x = e := by
  have hlog : Int.log 2 x < e + 53 := by
    apply (Int.lt_zpow_iff_log_lt (by norm_num) hx).mp
    exact_mod_cast hhigh
  unfold spacing
  rcases hlow with hlow | hleast
  · have hle : e + 52 ≤ Int.log 2 x := by
      apply (Int.zpow_le_iff_le_log (by norm_num) hx).mp
      exact_mod_cast hlow
    omega
  · omega

end Double

namespace Binary64

open Double (two_zpow_pos two_zpow_mono spacing nearestEven roundMagnitude)

variable {b : Binary64} {v : ℝ}

/-- Below a power of two the doubles are twice as dense. -/
def IsNarrow (b : Binary64) : Prop := b.significand = 2 ^ 52 ∧ -1074 < b.exponent

theorem leastReading_of_narrow (h : b.IsNarrow) :
    b.leastReading = ((2 ^ 53 : ℕ) - 1 / 2) * 2 ^ (b.exponent - 1) := by
  have hleast : b.readingInterval.1 = 4 * 2 ^ 52 - 1 := by
    show 4 * b.significand - (if b.significand = twoPow 52 ∧ -1074 < b.exponent then 1 else 2) = _
    have hif : b.significand = twoPow 52 ∧ -1074 < b.exponent := h
    rw [if_pos hif, h.1]
  unfold leastReading
  rw [hleast, show b.exponent - 1 = 1 + (b.exponent - 2) by ring, zpow_add₀ two_ne_zero]
  push_cast
  norm_num
  ring

theorem leastReading_of_not_narrow (hpos : 0 < b.significand) (h : ¬ b.IsNarrow) :
    b.leastReading = (b.significand - 1 / 2) * 2 ^ b.exponent := by
  have hleast : ((b.readingInterval.1 : ℕ) : ℝ) = 4 * b.significand - 2 := by
    have hnat : b.readingInterval.1 + 2 = 4 * b.significand := by
      show 4 * b.significand - (if b.significand = twoPow 52 ∧ -1074 < b.exponent then 1 else 2) +
        2 = _
      have hif : ¬ (b.significand = twoPow 52 ∧ -1074 < b.exponent) := h
      rw [if_neg hif]
      omega
    have hcast : (b.readingInterval.1 : ℝ) + 2 = 4 * b.significand := by exact_mod_cast hnat
    linarith
  unfold leastReading
  rw [hleast, zpow_sub₀ two_ne_zero]
  norm_num
  ring

theorem magnitude_of_narrow (h : b.IsNarrow) :
    b.magnitude = (2 ^ 53 : ℕ) * 2 ^ (b.exponent - 1) := by
  unfold magnitude
  rw [h.1, zpow_sub₀ two_ne_zero]
  push_cast
  norm_num
  ring

theorem two_zpow_le_magnitude (h : 2 ^ 52 ≤ b.significand) :
    (2 : ℝ) ^ (b.exponent + 52) ≤ b.magnitude := Double.zpow_le_mul_zpow h b.exponent

theorem greatestReading_lt (hb : b.IsFinite) : b.greatestReading < 2 ^ (b.exponent + 53) := by
  have hle : ((b.significand + 1 : ℕ) : ℝ) * 2 ^ b.exponent ≤ 2 ^ (b.exponent + 53) :=
    Double.mul_zpow_le hb.digits b.exponent
  rw [greatestReading_eq]
  refine lt_of_lt_of_le (mul_lt_mul_of_pos_right ?_ (two_zpow_pos _)) hle
  push_cast
  linarith

theorem magnitude_lt_limit (hb : b.IsFinite) : b.magnitude < Double.limit := by
  have hhighest := hb.highest
  calc b.magnitude < b.greatestReading := lt_greatestReading b
    _ < 2 ^ (b.exponent + 53) := greatestReading_lt hb
    _ ≤ Double.limit := two_zpow_mono (by omega)

/-- In units of the distance around the double, its interval is that of the significand. -/
theorem nearestEven_eq_significand_iff (hv : 0 ≤ v) :
    nearestEven (v / 2 ^ b.exponent) = b.significand ↔
      ((b.significand - 1 / 2) * 2 ^ b.exponent < v ∨
          b.significand % 2 = 0 ∧ (b.significand - 1 / 2) * 2 ^ b.exponent = v) ∧
        (v < b.greatestReading ∨ b.significand % 2 = 0 ∧ v = b.greatestReading) := by
  have hunit := two_zpow_pos b.exponent
  rw [Double.nearestEven_eq_iff (div_nonneg hv hunit.le), lt_div_iff₀ hunit, eq_div_iff hunit.ne',
    div_lt_iff₀ hunit, div_eq_iff hunit.ne', greatestReading_eq]

/-- Where the doubles are as dense as above it, a double is the nearest one of its interval. -/
theorem reads_iff_of_spacing_eq (hpos : 0 < b.significand) (hv : 0 < v)
    (hs : spacing v = b.exponent) : Reads b v ↔ roundMagnitude v = b.magnitude := by
  have hround : roundMagnitude v = b.magnitude ↔
      nearestEven (v / 2 ^ b.exponent) = b.significand := by
    unfold roundMagnitude magnitude
    rw [hs, mul_left_inj' (two_zpow_pos _).ne', Nat.cast_inj]
  rw [hround, nearestEven_eq_significand_iff hv.le]
  by_cases hnarrow : b.IsNarrow
  · -- The number is not below the double, so the lower end does not matter.
    have hle : b.magnitude ≤ v := by
      have hdiv := Double.le_div_spacing hv (by rw [hs]; exact hnarrow.2)
      rw [hs, le_div_iff₀ (two_zpow_pos _)] at hdiv
      unfold magnitude
      rw [hnarrow.1]
      exact hdiv
    have hhalf : (b.significand - 1 / 2 : ℝ) * 2 ^ b.exponent < v := by
      refine lt_of_lt_of_le (mul_lt_mul_of_pos_right ?_ (two_zpow_pos _)) hle
      linarith
    exact ⟨fun h => ⟨.inl hhalf, h.below⟩,
      fun h => ⟨.inl ((leastReading_lt hpos).trans_le hle), h.2⟩⟩
  · rw [← leastReading_of_not_narrow hpos hnarrow]
    exact ⟨fun h => ⟨h.above, h.below⟩, fun h => ⟨h.1, h.2⟩⟩

/-- Just below a power of two the doubles are twice as dense. -/
theorem reads_iff_of_spacing_lt (hnarrow : b.IsNarrow) (hv : 0 < v)
    (hs : spacing v = b.exponent - 1) : Reads b v ↔ roundMagnitude v = b.magnitude := by
  have hunit := two_zpow_pos (b.exponent - 1)
  have hround : roundMagnitude v = b.magnitude ↔
      nearestEven (v / 2 ^ (b.exponent - 1)) = 2 ^ 53 := by
    rw [magnitude_of_narrow hnarrow]
    unfold roundMagnitude
    rw [hs, mul_left_inj' hunit.ne', Nat.cast_inj]
  have hlt : v < (2 ^ 53 : ℕ) * 2 ^ (b.exponent - 1) := by
    have hdiv := Double.div_spacing_lt v
    rwa [hs, div_lt_iff₀ hunit] at hdiv
  have hbelow : v < ((2 ^ 53 : ℕ) + 1 / 2) * 2 ^ (b.exponent - 1) :=
    hlt.trans (mul_lt_mul_of_pos_right (by linarith) hunit)
  rw [hround, Double.nearestEven_eq_iff (div_nonneg hv.le hunit.le), lt_div_iff₀ hunit,
    eq_div_iff hunit.ne', div_lt_iff₀ hunit, ← leastReading_of_narrow hnarrow]
  have heven : b.significand % 2 = 0 := by rw [hnarrow.1]; decide
  constructor
  · intro h
    refine ⟨?_, .inl hbelow⟩
    rcases h.above with hlow | ⟨-, hend⟩
    · exact .inl hlow
    · exact .inr ⟨by decide, hend⟩
  · intro h
    refine ⟨?_, .inl ?_⟩
    · rcases h.1 with hlow | ⟨-, hend⟩
      · exact .inl hlow
      · exact .inr ⟨heven, hend⟩
    · rw [← magnitude_of_narrow hnarrow] at hlt
      exact hlt.trans (lt_greatestReading b)

theorem Reads.spacing_cases (h : Reads b v) (hb : b.IsFinite) (hpos : 0 < b.significand)
    (hv : 0 < v) : spacing v = b.exponent ∨ b.IsNarrow ∧ spacing v = b.exponent - 1 := by
  have hhigh := h.le_greatest.trans_lt (greatestReading_lt hb)
  by_cases hdense : (2 : ℝ) ^ (b.exponent + 52) ≤ v ∨ b.exponent = -1074
  · exact .inl (Double.spacing_eq hb.least hv hdense hhigh)
  obtain ⟨hlt, hexponent⟩ := not_or.mp hdense
  have hleast := hb.least
  have hlead := hb.lead.resolve_right hexponent
  by_cases hnarrow : b.IsNarrow
  · refine .inr ⟨hnarrow, Double.spacing_eq (by omega) hv (.inl ?_) ?_⟩
    · have hlow := h.least_le
      rw [leastReading_of_narrow hnarrow] at hlow
      refine le_trans ?_ hlow
      rw [add_comm, zpow_add₀ two_ne_zero]
      exact mul_le_mul_of_nonneg_right (by norm_num) (two_zpow_pos _).le
    · rw [show b.exponent - 1 + 53 = b.exponent + 52 by ring]
      exact not_le.mp hlt
  · -- Half way down to the neighbour the doubles are as dense.
    have hmore : 2 ^ 52 + 1 ≤ b.significand := by
      have hne : b.significand ≠ 2 ^ 52 := fun heq => hnarrow ⟨heq, by omega⟩
      omega
    have hcast : (2 ^ 52 : ℝ) + 1 ≤ b.significand := by exact_mod_cast hmore
    have hlow := h.least_le
    rw [leastReading_of_not_narrow hpos hnarrow] at hlow
    refine absurd (le_trans ?_ hlow) hlt
    rw [add_comm, zpow_add₀ two_ne_zero]
    exact mul_le_mul_of_nonneg_right (by norm_num; linarith) (two_zpow_pos _).le

theorem spacing_cases_of_roundMagnitude_eq (h : roundMagnitude v = b.magnitude) (hb : b.IsFinite)
    (hv : 0 < v) : spacing v = b.exponent ∨ b.IsNarrow ∧ spacing v = b.exponent - 1 := by
  have hleast := hb.least
  have hspacing : -1074 ≤ spacing v := le_max_right _ _
  have hhigh : b.magnitude < 2 ^ (b.exponent + 53) := Double.mul_zpow_lt hb.digits b.exponent
  rcases lt_trichotomy (spacing v) b.exponent with hlt | heq | hgt
  · right
    have hlead := hb.lead.resolve_right (by omega)
    have hupper := Double.roundMagnitude_le_zpow v
    rw [h] at hupper
    have hexponent : b.exponent + 52 ≤ spacing v + 53 :=
      (zpow_le_zpow_iff_right₀ one_lt_two).mp ((two_zpow_le_magnitude hlead).trans hupper)
    have hs : spacing v = b.exponent - 1 := by omega
    refine ⟨⟨le_antisymm ?_ hlead, by omega⟩, hs⟩
    rw [hs, show b.exponent - 1 + 53 = 52 + b.exponent by ring, zpow_add₀ two_ne_zero] at hupper
    have hcast := le_of_mul_le_mul_right hupper (two_zpow_pos _)
    exact_mod_cast hcast
  · exact .inl heq
  · have hlower := Double.zpow_le_roundMagnitude hv (by omega)
    rw [h] at hlower
    have hexponent : spacing v + 52 < b.exponent + 53 :=
      (zpow_lt_zpow_iff_right₀ one_lt_two).mp (hlower.trans_lt hhigh)
    omega

/-- The reading interval of a double holds the numbers whose nearest double it is. -/
theorem reads_iff (hb : b.IsFinite) (hpos : 0 < b.significand) (hv : 0 < v) :
    Reads b v ↔ roundMagnitude v = b.magnitude := by
  constructor
  · intro h
    rcases h.spacing_cases hb hpos hv with hs | ⟨hnarrow, hs⟩
    · exact (reads_iff_of_spacing_eq hpos hv hs).mp h
    · exact (reads_iff_of_spacing_lt hnarrow hv hs).mp h
  · intro h
    rcases spacing_cases_of_roundMagnitude_eq h hb hv with hs | ⟨hnarrow, hs⟩
    · exact (reads_iff_of_spacing_eq hpos hv hs).mpr h
    · exact (reads_iff_of_spacing_lt hnarrow hv hs).mpr h

end Binary64

end CodeQuality
