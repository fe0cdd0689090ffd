import CodeQuality.Proofs.Double.Arithmetic

/-!
What doubles denote.

A double either is no number or denotes one extended real number. Each operation on doubles that
denote numbers has a law here that gives what its result denotes, and each comparison a law that
gives its outcome, so that proofs about computed values never look at bits.
-/

namespace CodeQuality.Double

open Float.Model (Format UnpackedFloat)
open Float.Model.UnpackedFloat

/-- A double is a number, and which number it is. -/
structure Denotes (x : Float) (v : EReal) : Prop where
  isNumber : IsNumber x.toModel.unpack
  value_eq : value x.toModel.unpack = v

theorem denotes_of_packsTo {u : UnpackedFloat} {v : EReal} (h : PacksTo u v) :
    Denotes (.ofModel (.pack u)) v := by
  have hunpack : (Float.Model.pack u).unpack = clip u := unpack_pack h.canonical
  have hne : clip u ≠ .notANumber := by
    cases u with
    | notANumber => exact absurd rfl h.isNumber
    | finite s m e hm =>
      show (if 971 < e then UnpackedFloat.infinity s else .finite s m e hm) ≠ _
      split_ifs <;> exact UnpackedFloat.noConfusion
    | _ => exact UnpackedFloat.noConfusion
  have hbits := unpack_canonical (Float.Model.pack u).toBits.toBitVec
  refine ⟨⟨?_, hbits.1, hbits.2⟩, ?_⟩
  · exact hunpack ▸ hne
  · show value (Float.Model.pack u).unpack = v
    rw [hunpack, h.value_clip]

/-! ## What is no number -/

theorem isNaN_iff (x : Float) : x.isNaN = true ↔ x.toModel.unpack = .notANumber := by
  show x.toModel.unpack.isNaN = true ↔ _
  cases x.toModel.unpack <;> simp [UnpackedFloat.isNaN]

theorem eq_of_unpack_eq {x y : Float} (h : x.toModel.unpack = y.toModel.unpack) : x = y :=
  Float.toBits_inj.mp (UInt64.toBitVec_inj.mp
    ((unpack_inj_of_valid x.toModel.valid y.toModel.valid).mp h))

/-- What is no number is one double. -/
theorem eq_of_isNaN {x y : Float} (hx : x.isNaN = true) (hy : y.isNaN = true) : x = y :=
  eq_of_unpack_eq (((isNaN_iff x).mp hx).trans ((isNaN_iff y).mp hy).symm)

theorem exists_denotes {x : Float} (h : x.isNaN = false) : ∃ v, Denotes x v := by
  have hbits := unpack_canonical x.toModel.toBits.toBitVec
  refine ⟨_, ⟨fun hx => ?_, hbits.1, hbits.2⟩, rfl⟩
  rw [(isNaN_iff x).mpr hx] at h
  exact Bool.noConfusion h

theorem isNaN_or_denotes (x : Float) : x.isNaN = true ∨ ∃ v, Denotes x v := by
  cases h : x.isNaN with
  | true => exact .inl rfl
  | false => exact .inr (exists_denotes h)

theorem isNaN_pack {u : UnpackedFloat} (h : u = .notANumber) :
    (Float.ofModel (.pack u)).isNaN = true := by
  rw [h]
  rfl

theorem isNaN_add_left {x : Float} (h : x.isNaN = true) (y : Float) : (x + y).isNaN = true := by
  apply isNaN_pack
  rw [(isNaN_iff x).mp h]
  cases y.toModel.unpack <;> rfl

theorem isNaN_add_right (x : Float) {y : Float} (h : y.isNaN = true) : (x + y).isNaN = true := by
  apply isNaN_pack
  rw [(isNaN_iff y).mp h]
  cases x.toModel.unpack <;> rfl

theorem isNaN_sub_left {x : Float} (h : x.isNaN = true) (y : Float) : (x - y).isNaN = true := by
  apply isNaN_pack
  rw [(isNaN_iff x).mp h]
  cases y.toModel.unpack <;> rfl

theorem isNaN_sub_right (x : Float) {y : Float} (h : y.isNaN = true) : (x - y).isNaN = true := by
  apply isNaN_pack
  rw [(isNaN_iff y).mp h]
  cases x.toModel.unpack <;> rfl

theorem isNaN_mul_left {x : Float} (h : x.isNaN = true) (y : Float) : (x * y).isNaN = true := by
  apply isNaN_pack
  rw [(isNaN_iff x).mp h]
  cases y.toModel.unpack <;> rfl

theorem isNaN_div_left {x : Float} (h : x.isNaN = true) (y : Float) : (x / y).isNaN = true := by
  apply isNaN_pack
  rw [(isNaN_iff x).mp h]
  cases y.toModel.unpack <;> rfl

theorem not_lt_of_isNaN_left {x : Float} (h : x.isNaN = true) (y : Float) : ¬ x < y := by
  show ¬ (decide (UnpackedFloat.lt x.toModel.unpack y.toModel.unpack = true) = true)
  rw [(isNaN_iff x).mp h]
  exact Bool.noConfusion

theorem not_lt_of_isNaN_right (x : Float) {y : Float} (h : y.isNaN = true) : ¬ x < y := by
  show ¬ (decide (UnpackedFloat.lt x.toModel.unpack y.toModel.unpack = true) = true)
  rw [(isNaN_iff y).mp h]
  cases x.toModel.unpack <;> exact Bool.noConfusion

theorem isNaN_eq_false_of_lt {x y : Float} (h : x < y) : x.isNaN = false ∧ y.isNaN = false := by
  constructor
  · rw [← Bool.not_eq_true]
    exact fun hx => not_lt_of_isNaN_left hx y h
  · rw [← Bool.not_eq_true]
    exact fun hy => not_lt_of_isNaN_right x hy h

theorem not_le_of_isNaN_left {x : Float} (h : x.isNaN = true) (y : Float) : ¬ x ≤ y := by
  show ¬ (decide (UnpackedFloat.le x.toModel.unpack y.toModel.unpack = true) = true)
  rw [(isNaN_iff x).mp h]
  exact Bool.noConfusion

theorem not_le_of_isNaN_right (x : Float) {y : Float} (h : y.isNaN = true) : ¬ x ≤ y := by
  show ¬ (decide (UnpackedFloat.le x.toModel.unpack y.toModel.unpack = true) = true)
  rw [(isNaN_iff y).mp h]
  cases x.toModel.unpack <;> exact Bool.noConfusion

theorem not_beq_of_isNaN_left {x : Float} (h : x.isNaN = true) (y : Float) : (x == y) = false := by
  show UnpackedFloat.beq x.toModel.unpack y.toModel.unpack = false
  rw [(isNaN_iff x).mp h]
  rfl

/-! ## Laws of numbers -/

namespace Denotes

variable {x y : Float} {u v : EReal}

theorem unique (h : Denotes x u) (h' : Denotes x v) : u = v :=
  h.value_eq.symm.trans h'.value_eq

theorem nearest_eq (h : Denotes x v) : nearest v = v := by
  rw [← h.value_eq]
  exact h.isNumber.nearest_value

theorem isNaN_eq_false (h : Denotes x v) : x.isNaN = false := by
  rw [← Bool.not_eq_true, isNaN_iff]
  exact h.isNumber.ne_notANumber

protected theorem neg (h : Denotes x v) : Denotes (-x) (-v) := by
  have hneg := denotes_of_packsTo h.isNumber.neg.packsTo
  rwa [value_neg, h.value_eq] at hneg

protected theorem abs {a : ℝ} (h : Denotes x a) : Denotes x.abs ((|a| : ℝ) : EReal) := by
  have habs := denotes_of_packsTo h.isNumber.abs.packsTo
  rwa [value_abs h.value_eq] at habs

protected theorem add (hx : Denotes x u) (hy : Denotes y v) (h : ¬ Cancels u v) :
    Denotes (x + y) (nearest (u + v)) := by
  rcases hx with ⟨hx, rfl⟩
  rcases hy with ⟨hy, rfl⟩
  exact denotes_of_packsTo (packsTo_add hx hy h)

protected theorem sub (hx : Denotes x u) (hy : Denotes y v) (h : ¬ Cancels u (-v)) :
    Denotes (x - y) (nearest (u - v)) := by
  rcases hx with ⟨hx, rfl⟩
  rcases hy with ⟨hy, rfl⟩
  exact denotes_of_packsTo (packsTo_sub hx hy h)

protected theorem mul (hx : Denotes x u) (hy : Denotes y v) (h : ¬ Annihilates u v) :
    Denotes (x * y) (nearest (u * v)) := by
  rcases hx with ⟨hx, rfl⟩
  rcases hy with ⟨hy, rfl⟩
  exact denotes_of_packsTo (packsTo_mul hx hy h)

protected theorem div {d : ℝ} (hx : Denotes x u) (hy : Denotes y d) (hd : d ≠ 0) :
    Denotes (x / y) (nearest (u / d)) := by
  rcases hx with ⟨hx, rfl⟩
  rcases hy with ⟨hy, hvalue⟩
  rw [← hvalue]
  refine denotes_of_packsTo (packsTo_div hx hy ?_ ?_ ?_) <;> rw [hvalue]
  · exact EReal.coe_ne_zero.mpr hd
  · exact EReal.coe_ne_top d
  · exact EReal.coe_ne_bot d

theorem isNaN_mul_of_annihilates (hx : Denotes x u) (hy : Denotes y v) (h : Annihilates u v) :
    (x * y).isNaN = true := by
  rcases hx with ⟨hx, rfl⟩
  rcases hy with ⟨hy, rfl⟩
  apply isNaN_pack
  rcases h with ⟨h₀, h₁⟩ | ⟨h₀, h₁⟩
  · obtain ⟨s, hs⟩ := hx.eq_zero h₀
    obtain ⟨t, ht⟩ := hy.eq_infinity h₁
    rw [hs, ht]
    rfl
  · obtain ⟨s, hs⟩ := hx.eq_infinity h₀
    obtain ⟨t, ht⟩ := hy.eq_zero h₁
    rw [hs, ht]
    rfl

theorem compare_eq (hx : Denotes x u) (hy : Denotes y v) :
    UnpackedFloat.compare x.toModel.unpack y.toModel.unpack = some (cmp u v) := by
  rcases hx with ⟨hx, rfl⟩
  rcases hy with ⟨hy, rfl⟩
  exact compare_eq_cmp hx hy

theorem le_iff (hx : Denotes x u) (hy : Denotes y v) : x ≤ y ↔ u ≤ v := by
  show decide ((UnpackedFloat.compare x.toModel.unpack y.toModel.unpack).any (·.isLE) = true) =
    true ↔ _
  rw [hx.compare_eq hy, decide_eq_true_iff, ← (cmp_compares u v).ne_gt]
  cases cmp u v <;> decide

theorem lt_iff (hx : Denotes x u) (hy : Denotes y v) : x < y ↔ u < v := by
  show decide ((UnpackedFloat.compare x.toModel.unpack y.toModel.unpack == some .lt) = true) =
    true ↔ _
  rw [hx.compare_eq hy, decide_eq_true_iff, ← cmp_eq_lt_iff]
  simp

theorem coe_le_iff {a b : ℝ} (hx : Denotes x a) (hy : Denotes y b) : x ≤ y ↔ a ≤ b := by
  rw [hx.le_iff hy, EReal.coe_le_coe_iff]

theorem coe_lt_iff {a b : ℝ} (hx : Denotes x a) (hy : Denotes y b) : x < y ↔ a < b := by
  rw [hx.lt_iff hy, EReal.coe_lt_coe_iff]

theorem not_le_of_coe_lt {a b : ℝ} (hx : Denotes x a) (hy : Denotes y b) (h : b < a) : ¬ x ≤ y :=
  mt (hx.coe_le_iff hy).mp (not_le.mpr h)

theorem not_lt_of_coe_le {a b : ℝ} (hx : Denotes x a) (hy : Denotes y b) (h : b ≤ a) : ¬ x < y :=
  mt (hx.coe_lt_iff hy).mp (not_lt.mpr h)

theorem beq_iff (hx : Denotes x u) (hy : Denotes y v) : (x == y) = true ↔ u = v := by
  show (UnpackedFloat.compare x.toModel.unpack y.toModel.unpack == some .eq) = true ↔ _
  rw [hx.compare_eq hy, ← cmp_eq_eq_iff]
  simp

theorem isInf_iff (h : Denotes x v) : x.isInf = true ↔ v = ⊤ ∨ v = ⊥ := by
  rcases h with ⟨hx, rfl⟩
  show x.toModel.unpack.isInf = true ↔ _
  constructor
  · intro hinf
    cases hu : x.toModel.unpack with
    | infinity s => cases s <;> simp [value]
    | _ => simp [hu, UnpackedFloat.isInf] at hinf
  · intro hvalue
    obtain ⟨s, hs⟩ := hx.eq_infinity hvalue
    rw [hs]
    rfl

theorem isInf_iff_eq_top (h : Denotes x v) (hv : 0 ≤ v) : x.isInf = true ↔ v = ⊤ := by
  rw [h.isInf_iff]
  constructor
  · rintro (rfl | rfl)
    · rfl
    · exact absurd hv (by simp)
  · exact .inl

theorem isFinite_iff (h : Denotes x v) : x.isFinite = true ↔ ∃ r : ℝ, v = r := by
  have hinf := h.isInf_iff
  have hneg : x.isFinite = true ↔ ¬ x.isInf = true := by
    show x.toModel.unpack.isFinite = true ↔ ¬ x.toModel.unpack.isInf = true
    have hx := h.isNumber.ne_notANumber
    cases hu : x.toModel.unpack with
    | notANumber => exact absurd hu hx
    | _ => simp [UnpackedFloat.isFinite, UnpackedFloat.isInf]
  rw [hneg, hinf]
  induction v with
  | bot => simp
  | top => simp
  | coe r => simp

end Denotes

theorem exists_denotes_of_isFinite {x : Float} (h : x.isFinite = true) : ∃ r : ℝ, Denotes x r := by
  rcases isNaN_or_denotes x with hnan | ⟨v, hv⟩
  · rw [isNaN_iff] at hnan
    change x.toModel.unpack.isFinite = true at h
    rw [hnan] at h
    exact Bool.noConfusion h
  · obtain ⟨r, rfl⟩ := hv.isFinite_iff.mp h
    exact ⟨r, hv⟩

/-! ## Sums -/

/-- Numbers from zero on add up to such a number, infinity included. -/
theorem exists_sum (xs : List Float) (hxs : ∀ x ∈ xs, ∃ v, Denotes x v ∧ 0 ≤ v) :
    ∀ start : Float, (∃ v, Denotes start v ∧ 0 ≤ v) →
      ∃ v, Denotes (xs.foldl (· + ·) start) v ∧ 0 ≤ v := by
  -- On the list, for every start: the start of the rest is the first partial sum.
  induction xs with
  | nil => exact fun start h => h
  | cons x rest ih =>
    rintro start ⟨u, hu, hu₀⟩
    obtain ⟨v, hv, hv₀⟩ := hxs x (List.mem_cons_self ..)
    apply ih fun y hy => hxs y (List.mem_cons_of_mem x hy)
    exact ⟨_, hu.add hv (not_cancels_of_nonneg hu₀ hv₀), nearest_nonneg (add_nonneg hu₀ hv₀)⟩

theorem isNaN_sum (xs : List Float) : ∀ start : Float,
    start.isNaN = true ∨ (∃ x ∈ xs, x.isNaN = true) → (xs.foldl (· + ·) start).isNaN = true := by
  induction xs with
  | nil =>
    rintro start (h | ⟨x, hx, -⟩)
    · exact h
    · exact absurd hx (List.not_mem_nil)
  | cons x rest ih =>
    rintro start (h | ⟨y, hy, hnan⟩)
    · exact ih _ (.inl (isNaN_add_left h x))
    · rcases List.mem_cons.mp hy with rfl | hrest
      · exact ih _ (.inl (isNaN_add_right start hnan))
      · exact ih _ (.inr ⟨y, hrest, hnan⟩)

/-! ## Differences -/

theorem exists_real {v : EReal} {b : ℝ} (hlow : 0 ≤ v) (hhigh : v ≤ b) :
    ∃ d : ℝ, v = d ∧ 0 ≤ d ∧ d ≤ b := by
  induction v with
  | bot => exact absurd hlow (by simp)
  | top => exact absurd hhigh (by simp)
  | coe d => exact ⟨d, rfl, EReal.coe_nonneg.mp hlow, EReal.coe_le_coe_iff.mp hhigh⟩

namespace Denotes

variable {x y : Float} {a b : ℝ}

/-- Finite doubles are whole in units of the least distance. -/
theorem exists_units (h : Denotes x a) : ∃ k : ℤ, a = k * leastUnit := by
  rcases h with ⟨hx, hvalue⟩
  cases hu : x.toModel.unpack with
  | notANumber => exact absurd hu hx.ne_notANumber
  | infinity s =>
    rw [hu] at hvalue
    cases s <;> simp [value] at hvalue
  | zero s =>
    rw [hu] at hvalue
    refine ⟨0, ?_⟩
    rw [Int.cast_zero, zero_mul]
    exact (EReal.coe_eq_zero.mp hvalue.symm)
  | finite s m e hm =>
    rw [hu] at hvalue hx
    -- The exponent is at least that of the least distance.
    obtain ⟨k, hk⟩ := Int.eq_ofNat_of_zero_le (sub_nonneg.mpr hx.canonical.2.1)
    have hunits : (m : ℝ) * 2 ^ e = ((m * 2 ^ k : ℕ) : ℝ) * leastUnit := by
      unfold leastUnit
      push_cast
      rw [mul_assoc, ← zpow_natCast, ← zpow_add₀ (by norm_num)]
      congr 2
      omega
    have ha : a = signed s (m * 2 ^ e) := (EReal.coe_eq_coe_iff.mp hvalue).symm
    cases s with
    | negative =>
      refine ⟨-((m * 2 ^ k : ℕ) : ℤ), ?_⟩
      rw [ha, signed_neg, hunits]
      push_cast
      ring
    | positive =>
      refine ⟨((m * 2 ^ k : ℕ) : ℤ), ?_⟩
      rw [ha, signed_pos, hunits, Int.cast_natCast]

theorem leastUnit_le_sub (hx : Denotes x a) (hy : Denotes y b) (h : b < a) :
    leastUnit ≤ a - b := by
  obtain ⟨k, rfl⟩ := hx.exists_units
  obtain ⟨l, rfl⟩ := hy.exists_units
  have hpos : 0 < leastUnit := two_zpow_pos _
  have hlt : l < k := by exact_mod_cast lt_of_mul_lt_mul_right h hpos.le
  have hone : (1 : ℝ) ≤ k - l := by exact_mod_cast (by omega : 1 ≤ k - l)
  calc leastUnit = 1 * leastUnit := (one_mul _).symm
    _ ≤ (k - l) * leastUnit := mul_le_mul_of_nonneg_right hone hpos.le
    _ = k * leastUnit - l * leastUnit := sub_mul _ _ _

/-- Differences of numbers from zero on neither overflow nor vanish. -/
theorem difference (hx : Denotes x a) (hy : Denotes y b) (hb : 0 ≤ b) (h : b ≤ a) :
    nearest ((a - b : ℝ)) = ((nearest ((a - b : ℝ))).toReal : ℝ) ∧
      Denotes (x - y) ((nearest ((a - b : ℝ))).toReal : ℝ) ∧
      0 ≤ (nearest ((a - b : ℝ))).toReal ∧ (b < a → 0 < (nearest ((a - b : ℝ))).toReal) := by
  have hlow : 0 ≤ nearest ((a - b : ℝ)) := nearest_nonneg (by exact_mod_cast sub_nonneg.mpr h)
  have hhigh : nearest ((a - b : ℝ)) ≤ a := by
    rw [← hx.nearest_eq]
    exact nearest_mono (EReal.coe_le_coe_iff.mpr (by linarith))
  have hdifference : Denotes (x - y) (nearest ((a - b : ℝ))) :=
    hx.sub hy (not_cancels_of_coe_left _ _)
  obtain ⟨d, hd, hnonneg, -⟩ := exists_real hlow hhigh
  rw [hd] at hdifference
  rw [hd, EReal.toReal_coe]
  refine ⟨rfl, hdifference, hnonneg, ?_⟩
  intro hlt
  -- The exact difference is at least the least unit, which rounding keeps.
  have hunit : ((leastUnit : ℝ) : EReal) ≤ d := by
    rw [← hd, ← isMagnitude_leastUnit.nearest_eq]
    exact nearest_mono (EReal.coe_le_coe_iff.mpr (hx.leastUnit_le_sub hy hlt))
  exact (two_zpow_pos _).trans_le (EReal.coe_le_coe_iff.mp hunit)

end Denotes

/-! ## Magnitudes with a sign -/

noncomputable def withSign (negative : Bool) (r : ℝ) : ℝ := if negative then -r else r

theorem abs_withSign (negative : Bool) (r : ℝ) : |withSign negative r| = |r| := by
  cases negative with
  | true => exact abs_neg r
  | false => rfl

theorem abs_withSign_sub (negative : Bool) (r s : ℝ) :
    |withSign negative r - withSign negative s| = |r - s| := by
  cases negative with
  | true =>
    show |-r - -s| = _
    rw [neg_sub_neg, abs_sub_comm]
  | false => rfl

theorem Denotes.withSign {y : Float} {v : ℝ} (h : Denotes y v) (negative : Bool) :
    Denotes (if negative then -y else y) (withSign negative v : ℝ) := by
  cases negative with
  | true => exact h.neg
  | false => exact h

end CodeQuality.Double
