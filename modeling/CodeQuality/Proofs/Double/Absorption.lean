import CodeQuality.Proofs.Double.Order
import CodeQuality.Proofs.Double.ReadingInterval
import CodeQuality.Proofs.Double.Roundoff

/-!
Sums of any length that stay finite.

The greatest doubles are so far apart that an addend of at most half their distance is lost. So a
sum of such addends stays finite, however many there are. Any greater addend is lost nowhere, and
a sum of enough of it is infinite.
-/

namespace CodeQuality.Double

variable {x y : Float}

/-! ## Finite doubles -/

theorem nearest_eq_top_of_limit_le {r : ℝ} (h : limit ≤ r) : nearest r = ⊤ := by
  have hlimit : roundMagnitude limit = limit := by
    have hself := roundMagnitude_eq_self (n := 1) (e := 1024) (by norm_num) (by norm_num)
    rwa [Nat.cast_one, one_mul] at hself
  rw [nearest_coe, roundReal_of_nonneg (limit_pos.le.trans h)]
  apply overflow_of_limit_le
  calc limit = roundMagnitude limit := hlimit.symm
    _ ≤ roundMagnitude r := roundMagnitude_mono limit_pos.le h

theorem Denotes.lt_limit {r : ℝ} (h : Denotes x r) : r < limit := by
  by_contra hle
  have htop := h.nearest_eq
  rw [nearest_eq_top_of_limit_le (not_lt.mp hle)] at htop
  exact EReal.coe_ne_top r htop.symm

theorem isFinite_of_le (hx : 0.0 ≤ x) (h : x ≤ y) (hy : y.isFinite = true) : x.isFinite = true := by
  obtain ⟨u, v, hu, hv, huv⟩ := exists_of_le h
  obtain ⟨u', hu', hu₀⟩ := exists_of_nonneg hx
  obtain ⟨r, rfl⟩ := hv.isFinite_iff.mp hy
  rw [hu'.unique hu] at hu₀
  obtain ⟨d, hd, -⟩ := exists_real hu₀ huv
  exact hu.isFinite_iff.mpr ⟨d, hd⟩

theorem isInf_eq_false_of_isNaN {x : Float} (h : x.isNaN = true) : x.isInf = false := by
  rw [isNaN_iff] at h
  show x.toModel.unpack.isInf = false
  rw [h]
  rfl

theorem isInf_eq_false_of_isFinite {x : Float} (h : x.isFinite = true) : x.isInf = false := by
  obtain ⟨r, hr⟩ := exists_denotes_of_isFinite h
  rw [Bool.eq_false_iff, ne_eq, hr.isInf_iff]
  rintro (htop | hbot)
  · exact EReal.coe_ne_top r htop
  · exact EReal.coe_ne_bot r hbot

/-- A number from zero on is finite or infinite. -/
theorem isFinite_iff_of_nonneg {x : Float} (h : 0.0 ≤ x) : x.isFinite = true ↔ x.isInf = false := by
  refine ⟨isInf_eq_false_of_isFinite, fun hinf => ?_⟩
  obtain ⟨v, hv, hv₀⟩ := exists_of_nonneg h
  rw [Bool.eq_false_iff, ne_eq, hv.isInf_iff_eq_top hv₀] at hinf
  induction v with
  | bot => exact absurd hv₀ (by simp)
  | top => exact absurd rfl hinf
  | coe r => exact hv.isFinite_iff.mpr ⟨r, rfl⟩

/-! ## Addends that are lost -/

/-- Half of the greatest distance between neighbouring doubles. -/
noncomputable def greatestAbsorbed : ℝ := 2 ^ (970 : ℤ)

/-- The first double with the greatest distance to the next one. -/
noncomputable def saturation : ℝ := 2 ^ (1023 : ℤ)

theorem greatestAbsorbed_pos : 0 < greatestAbsorbed := two_zpow_pos _

theorem greatestAbsorbed_eq : greatestAbsorbed = 1 / 2 * 2 ^ (971 : ℤ) := by
  unfold greatestAbsorbed
  rw [show (970 : ℤ) = -1 + 971 by norm_num, zpow_add₀ two_ne_zero]
  norm_num

theorem saturation_eq : saturation = ((2 ^ 52 : ℕ) : ℝ) * 2 ^ (971 : ℤ) :=
  (natCast_two_pow_mul_zpow 52 971).symm

/-- Where doubles are furthest apart, an addend short of the middle is lost, and one in the middle
if the tie goes back. -/
theorem nearest_add_absorbed {n : ℕ} (hlow : 2 ^ 52 ≤ n) (hhigh : n < 2 ^ 53) {a : ℝ} (ha₀ : 0 ≤ a)
    (ha : a < greatestAbsorbed ∨ n % 2 = 0 ∧ a = greatestAbsorbed) :
    nearest ((n * 2 ^ (971 : ℤ) + a : ℝ)) = ((n * 2 ^ (971 : ℤ) : ℝ) : EReal) := by
  have hunit := two_zpow_pos 971
  have hpart : a / 2 ^ (971 : ℤ) < 1 / 2 ∨ n % 2 = 0 ∧ a / 2 ^ (971 : ℤ) = 1 / 2 := by
    rw [greatestAbsorbed_eq] at ha
    rwa [div_lt_iff₀ hunit, div_eq_iff hunit.ne']
  have hpart₀ : 0 ≤ a / 2 ^ (971 : ℤ) := div_nonneg ha₀ hunit.le
  have hpart₁ : a / 2 ^ (971 : ℤ) ≤ 1 / 2 := by
    rcases hpart with hlt | ⟨-, heq⟩
    · exact hlt.le
    · exact heq.le
  have hsum : n * 2 ^ (971 : ℤ) + a = (n + a / 2 ^ (971 : ℤ)) * 2 ^ (971 : ℤ) := by
    rw [add_mul, div_mul_cancel₀ a hunit.ne']
  have hn : (1 : ℝ) ≤ n := by exact_mod_cast (Nat.one_le_two_pow).trans hlow
  have hpos : 0 < n * 2 ^ (971 : ℤ) + a :=
    add_pos_of_pos_of_nonneg (mul_pos (one_pos.trans_le hn) hunit) ha₀
  have hspacing : spacing (n * 2 ^ (971 : ℤ) + a) = 971 := by
    apply spacing_eq (by norm_num) hpos
    · exact .inl ((zpow_le_mul_zpow hlow 971).trans (le_add_of_nonneg_right ha₀))
    · have hcast : (n : ℝ) + 1 ≤ ((2 ^ 53 : ℕ) : ℝ) := by exact_mod_cast hhigh
      have htop : ((2 ^ 53 : ℕ) : ℝ) * 2 ^ (971 : ℤ) = 2 ^ (971 + 53 : ℤ) :=
        natCast_two_pow_mul_zpow 53 971
      rw [hsum, ← htop]
      refine mul_lt_mul_of_pos_right (lt_of_lt_of_le ?_ hcast) hunit
      linarith only [hpart₁]
  have hround : roundMagnitude (n * 2 ^ (971 : ℤ) + a) = n * 2 ^ (971 : ℤ) := by
    unfold roundMagnitude
    rw [hspacing, hsum, mul_div_cancel_right₀ _ hunit.ne',
      (nearestEven_eq_iff (by linarith) n).mpr]
    refine ⟨.inl (by linarith), ?_⟩
    rcases hpart with hlt | ⟨heven, heq⟩
    · exact .inl (by linarith)
    · exact .inr ⟨heven, by rw [heq]⟩
  have hlimit : roundMagnitude (n * 2 ^ (971 : ℤ) + a) < limit := by
    rw [hround]
    exact mul_zpow_lt hhigh 971
  rw [nearest_of_roundMagnitude_lt hpos.le hlimit, hround]

theorem nearest_saturation_add :
    nearest ((saturation + greatestAbsorbed : ℝ)) = saturation := by
  rw [saturation_eq]
  exact nearest_add_absorbed le_rfl (by norm_num) greatestAbsorbed_pos.le (.inr ⟨by norm_num, rfl⟩)

theorem exists_sum_le (xs : List Float)
    (hxs : ∀ x ∈ xs, ∃ a : ℝ, Denotes x a ∧ 0 ≤ a ∧ a ≤ greatestAbsorbed) :
    ∀ start : Float, (∃ v, Denotes start v ∧ 0 ≤ v ∧ v ≤ saturation) →
      ∃ v, Denotes (xs.foldl (· + ·) start) v ∧ 0 ≤ v ∧ v ≤ saturation := by
  -- No partial sum exceeds the saturation, so none of the next addends counts there.
  induction xs with
  | nil => exact fun start h => h
  | cons x rest ih =>
    rintro start ⟨u, hu, hu₀, hu₁⟩
    obtain ⟨a, ha, ha₀, ha₁⟩ := hxs x List.mem_cons_self
    have ha₀' : (0 : EReal) ≤ a := EReal.coe_nonneg.mpr ha₀
    apply ih fun y hy => hxs y (List.mem_cons_of_mem x hy)
    refine ⟨_, hu.add ha (not_cancels_of_nonneg hu₀ ha₀'), nearest_nonneg (add_nonneg hu₀ ha₀'), ?_⟩
    calc nearest (u + a) ≤ nearest ((saturation : EReal) + greatestAbsorbed) :=
          nearest_mono (add_le_add hu₁ (EReal.coe_le_coe_iff.mpr ha₁))
      _ = saturation := by rw [← EReal.coe_add, nearest_saturation_add]

theorem Denotes.le_greatest {r : ℝ} (h : Denotes x r) :
    r ≤ ((2 ^ 53 - 1 : ℕ) : ℝ) * 2 ^ (971 : ℤ) := by
  obtain ⟨b, hb⟩ := Binary64.exists_ofFloat? (h.isFinite_iff.mpr ⟨r, rfl⟩)
  have hfinite := Binary64.isFinite_of_ofFloat? hb
  have hvalue := EReal.coe_injective (h.unique (Binary64.denotes_of_ofFloat? hb))
  have hdigits : (b.significand : ℝ) ≤ ((2 ^ 53 - 1 : ℕ) : ℝ) :=
    Nat.cast_le.mpr (Nat.le_pred_of_lt hfinite.digits)
  calc r ≤ |r| := le_abs_self r
    _ = |b.magnitude| := by
        rw [hvalue]
        exact abs_withSign b.negative b.magnitude
    _ = b.significand * 2 ^ b.exponent :=
        abs_of_nonneg (mul_nonneg (Nat.cast_nonneg _) (two_zpow_pos _).le)
    _ ≤ ((2 ^ 53 - 1 : ℕ) : ℝ) * 2 ^ (971 : ℤ) :=
        mul_le_mul hdigits (two_zpow_mono hfinite.highest) (two_zpow_pos _).le (Nat.cast_nonneg _)

/-- A small addend makes no finite double infinite. -/
theorem exists_add_of_lt {a s : ℝ} (ha : Denotes x a) (ha₀ : 0 ≤ a) (h : a < greatestAbsorbed)
    (hs : Denotes y s) (hs₀ : 0 ≤ s) : ∃ r : ℝ, Denotes (x + y) r ∧ 0 ≤ r := by
  have hsum := ha.add hs (not_cancels_of_coe_left a s)
  rw [← EReal.coe_add] at hsum
  have hlow : 0 ≤ nearest ((a + s : ℝ)) := nearest_nonneg (EReal.coe_nonneg.mpr (by linarith))
  have hhigh : nearest ((a + s : ℝ)) ≤ ((((2 ^ 53 - 1 : ℕ) : ℝ) * 2 ^ (971 : ℤ) : ℝ) : EReal) := by
    rw [← nearest_add_absorbed (n := 2 ^ 53 - 1) (by norm_num) (by norm_num) ha₀ (.inl h)]
    exact nearest_mono (EReal.coe_le_coe_iff.mpr (by linarith [hs.le_greatest]))
  obtain ⟨r, hr, hr₀, -⟩ := exists_real hlow hhigh
  exact ⟨r, hr ▸ hsum, hr₀⟩

/-! ## Addends that are not -/

theorem eq_of_overflow_eq {r w : ℝ} (h : overflow r = w) : r = w := by
  unfold overflow at h
  split_ifs at h
  · exact absurd h.symm (EReal.coe_ne_top w)
  · exact absurd h.symm (EReal.coe_ne_bot w)
  · exact EReal.coe_injective h

/-- A finite result has the magnitude that rounding gives without regard to overflow. -/
theorem roundMagnitude_eq_of_nearest_eq {r w : ℝ} (hr : 0 ≤ r) (h : nearest r = w) :
    roundMagnitude r = w := by
  rw [nearest_coe, roundReal_of_nonneg hr] at h
  exact eq_of_overflow_eq h

theorem spacing_le_of_lt_limit {r : ℝ} (hr : 0 < r) (h : r < limit) : spacing r ≤ 971 := by
  have hlog : Int.log 2 r < 1024 := by
    apply (Int.lt_zpow_iff_log_lt (by norm_num) hr).mp
    rw [Nat.cast_ofNat]
    exact h
  unfold spacing
  omega

/-- A greater addend moves every sum that stays finite, by at least one unit. -/
theorem add_leastUnit_le {s a w : ℝ} (hs : Denotes x s) (hs₀ : 0 ≤ s) (ha : Denotes y a)
    (hgreat : greatestAbsorbed < a) (hw : Denotes (x + y) w) : s + leastUnit ≤ w := by
  have hpos : 0 < s + a := add_pos_of_nonneg_of_pos hs₀ (greatestAbsorbed_pos.trans hgreat)
  have hnearest : nearest ((s + a : ℝ)) = w := by
    rw [EReal.coe_add]
    exact (hs.add ha (not_cancels_of_coe_left s a)).unique hw
  have hlimit : s + a < limit := by
    by_contra hle
    rw [nearest_eq_top_of_limit_le (not_lt.mp hle)] at hnearest
    exact EReal.coe_ne_top w hnearest.symm
  have hround : roundMagnitude (s + a) = w := roundMagnitude_eq_of_nearest_eq hpos.le hnearest
  have herror : |w - (s + a)| ≤ greatestAbsorbed := by
    rw [← hround]
    refine (abs_roundMagnitude_sub_le_spacing hpos.le).trans (two_zpow_mono ?_)
    have hspacing := spacing_le_of_lt_limit hpos hlimit
    omega
  have hlt : s < w := by linarith [(abs_le.mp herror).1]
  linarith [hw.leastUnit_le_sub hs hlt]

theorem units_le_sum {a : ℝ} (ha : Denotes x a) (hgreat : greatestAbsorbed < a)
    (hfinite : ∀ n, ((List.replicate n x).foldl (· + ·) (-0.0)).isFinite = true) (n : ℕ) :
    ∃ s : ℝ, Denotes ((List.replicate n x).foldl (· + ·) (-0.0)) s ∧ n * leastUnit ≤ s := by
  induction n with
  | zero =>
    refine ⟨0, ?_, by rw [Nat.cast_zero, zero_mul]⟩
    simpa using denotes_neg_zero
  | succ n ih =>
    obtain ⟨s, hs, hunits⟩ := ih
    have hsum : (List.replicate (n + 1) x).foldl (· + ·) (-0.0) =
        (List.replicate n x).foldl (· + ·) (-0.0) + x := by
      rw [List.replicate_succ', List.foldl_append]
      rfl
    have hnext := hfinite (n + 1)
    rw [hsum] at hnext ⊢
    have hs₀ : 0 ≤ s := (mul_nonneg (Nat.cast_nonneg n) (two_zpow_pos _).le).trans hunits
    obtain ⟨w, hw⟩ := exists_denotes_of_isFinite hnext
    refine ⟨w, hw, ?_⟩
    calc ((n + 1 : ℕ) : ℝ) * leastUnit = n * leastUnit + leastUnit := by
          push_cast
          ring
      _ ≤ s + leastUnit := add_le_add_left hunits leastUnit
      _ ≤ w := add_leastUnit_le hs hs₀ ha hgreat hw

/-- Repeated often enough, a greater addend leads beyond the finite doubles. -/
theorem exists_sum_infinite {a : ℝ} (ha : Denotes x a) (hgreat : greatestAbsorbed < a) :
    ∃ n, ((List.replicate n x).foldl (· + ·) (-0.0)).isFinite = false := by
  by_contra hnone
  have hfinite (n : ℕ) : ((List.replicate n x).foldl (· + ·) (-0.0)).isFinite = true := by
    by_contra hinfinite
    exact hnone ⟨n, Bool.eq_false_iff.mpr hinfinite⟩
  obtain ⟨n, hn⟩ := exists_nat_gt (limit / leastUnit)
  obtain ⟨s, hs, hunits⟩ := units_le_sum ha hgreat hfinite n
  have hunit : 0 < leastUnit := two_zpow_pos _
  rw [div_lt_iff₀ hunit] at hn
  exact absurd hs.lt_limit (not_lt.mpr (hn.le.trans hunits))

end CodeQuality.Double
