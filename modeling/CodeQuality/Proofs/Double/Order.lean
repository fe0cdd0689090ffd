import CodeQuality.Proofs.Double.Whole

/-!
The order of doubles under their operations.

An order between two doubles says that both are numbers. Rounding is monotone, so each operation
keeps the order of its arguments as long as its result is a number: sums and products of numbers
from zero on, differences from a number of at most 100, and the limits of a score.
-/

namespace CodeQuality.Double

variable {x x' y y' z : Float}

/-! ## Numbers and their order -/

theorem exists_of_le (h : x ≤ y) : ∃ u v, Denotes x u ∧ Denotes y v ∧ u ≤ v := by
  rcases isNaN_or_denotes y with hnan | ⟨v, hv⟩
  · exact absurd h (not_le_of_isNaN_right x hnan)
  rcases isNaN_or_denotes x with hnan | ⟨u, hu⟩
  · exact absurd h (not_le_of_isNaN_left hnan y)
  · exact ⟨u, v, hu, hv, (hu.le_iff hv).mp h⟩

theorem exists_of_nonneg (h : 0.0 ≤ x) : ∃ u, Denotes x u ∧ 0 ≤ u := by
  obtain ⟨z, u, hz, hu, hzu⟩ := exists_of_le h
  rw [hz.unique denotes_zero] at hzu
  exact ⟨u, hu, hzu⟩

theorem exists_of_le_hundred (h : x ≤ 100.0) : ∃ u, Denotes x u ∧ u ≤ 100 := by
  obtain ⟨u, z, hu, hz, huz⟩ := exists_of_le h
  rw [hz.unique denotes_hundred] at huz
  exact ⟨u, hu, huz⟩

theorem nonneg_of_denotes {v : EReal} (h : Denotes x v) (hv : 0 ≤ v) : 0.0 ≤ x :=
  (denotes_zero.le_iff h).mpr hv

theorem le_trans (hxy : x ≤ y) (hyz : y ≤ z) : x ≤ z := by
  obtain ⟨u, v, hu, hv, huv⟩ := exists_of_le hxy
  obtain ⟨v', w, hv', hw, hvw⟩ := exists_of_le hyz
  rw [hv'.unique hv] at hvw
  exact (hu.le_iff hw).mpr (huv.trans hvw)

theorem not_lt_self (x : Float) : ¬ x < x := by
  intro h
  obtain ⟨u, hu⟩ := exists_denotes (isNaN_eq_false_of_lt h).1
  exact lt_irrefl u ((hu.lt_iff hu).mp h)

protected theorem le_of_lt (h : x < y) : x ≤ y := by
  obtain ⟨u, hu⟩ := exists_denotes (isNaN_eq_false_of_lt h).1
  obtain ⟨v, hv⟩ := exists_denotes (isNaN_eq_false_of_lt h).2
  exact (hu.le_iff hv).mpr ((hu.lt_iff hv).mp h).le

protected theorem lt_of_lt_of_le (hxy : x < y) (hyz : y ≤ z) : x < z := by
  obtain ⟨u, hu⟩ := exists_denotes (isNaN_eq_false_of_lt hxy).1
  obtain ⟨v, w, hv, hw, hvw⟩ := exists_of_le hyz
  exact (hu.lt_iff hw).mpr (((hu.lt_iff hv).mp hxy).trans_le hvw)

protected theorem lt_of_le_of_lt (hxy : x ≤ y) (hyz : y < z) : x < z := by
  obtain ⟨u, v, hu, hv, huv⟩ := exists_of_le hxy
  obtain ⟨w, hw⟩ := exists_denotes (isNaN_eq_false_of_lt hyz).2
  exact (hu.lt_iff hw).mpr (huv.trans_lt ((hv.lt_iff hw).mp hyz))

theorem le_self (h : x.isNaN = false) : x ≤ x := by
  obtain ⟨u, hu⟩ := exists_denotes h
  exact (hu.le_iff hu).mpr le_rfl

theorem isNaN_eq_false_of_le (h : x ≤ y) : x.isNaN = false ∧ y.isNaN = false := by
  obtain ⟨u, v, hu, hv, -⟩ := exists_of_le h
  exact ⟨hu.isNaN_eq_false, hv.isNaN_eq_false⟩

/-! ## Sums -/

theorem add_mono (hx₀ : 0.0 ≤ x) (hy₀ : 0.0 ≤ y) (hx : x ≤ x') (hy : y ≤ y') :
    x + y ≤ x' + y' := by
  obtain ⟨u, hu, hu₀⟩ := exists_of_nonneg hx₀
  obtain ⟨v, hv, hv₀⟩ := exists_of_nonneg hy₀
  obtain ⟨u', hu', hu₀'⟩ := exists_of_nonneg (le_trans hx₀ hx)
  obtain ⟨v', hv', hv₀'⟩ := exists_of_nonneg (le_trans hy₀ hy)
  have hsum := hu.add hv (not_cancels_of_nonneg hu₀ hv₀)
  have hsum' := hu'.add hv' (not_cancels_of_nonneg hu₀' hv₀')
  rw [hsum.le_iff hsum']
  exact nearest_mono (add_le_add ((hu.le_iff hu').mp hx) ((hv.le_iff hv').mp hy))

theorem le_add (hx : 0.0 ≤ x) (hy : 0.0 ≤ y) : x ≤ x + y := by
  obtain ⟨u, hu, hu₀⟩ := exists_of_nonneg hx
  obtain ⟨v, hv, hv₀⟩ := exists_of_nonneg hy
  rw [hu.le_iff (hu.add hv (not_cancels_of_nonneg hu₀ hv₀))]
  calc u = nearest u := hu.nearest_eq.symm
    _ ≤ nearest (u + v) := nearest_mono (le_add_of_nonneg_right hv₀)

theorem le_add_left (hx : 0.0 ≤ x) (hy : 0.0 ≤ y) : y ≤ x + y := by
  obtain ⟨u, hu, hu₀⟩ := exists_of_nonneg hx
  obtain ⟨v, hv, hv₀⟩ := exists_of_nonneg hy
  rw [hv.le_iff (hu.add hv (not_cancels_of_nonneg hu₀ hv₀))]
  calc v = nearest v := hv.nearest_eq.symm
    _ ≤ nearest (u + v) := nearest_mono (le_add_of_nonneg_left hu₀)

theorem sum_mono {xs ys : List Float} (h : List.Forall₂ (· ≤ ·) xs ys)
    (hxs : ∀ x ∈ xs, 0.0 ≤ x) : ∀ {start start' : Float}, 0.0 ≤ start → start ≤ start' →
      xs.foldl (· + ·) start ≤ ys.foldl (· + ·) start' := by
  -- On the two lists side by side, for every pair of starts.
  induction h with
  | nil => exact fun _ hle => hle
  | cons hxy _ ih =>
    intro start start' hstart hle
    have hx := hxs _ (List.mem_cons_self ..)
    apply ih fun z hz => hxs z (List.mem_cons_of_mem _ hz)
    · exact le_trans hstart (le_add hstart hx)
    · exact add_mono hstart hx hle hxy

/-- Leaving out terms from zero on makes no sum greater, wherever in the sum they stand. -/
theorem sum_le_sum_of_sublist {xs ys : List Float} (h : xs.Sublist ys)
    (hys : ∀ y ∈ ys, 0.0 ≤ y) : ∀ {start start' : Float}, 0.0 ≤ start → start ≤ start' →
      xs.foldl (· + ·) start ≤ ys.foldl (· + ·) start' := by
  induction h with
  | slnil => exact fun _ hle => hle
  | cons y _ ih =>
    intro start start' hstart hle
    have hy := hys y (List.mem_cons_self ..)
    apply ih (fun z hz => hys z (List.mem_cons_of_mem y hz)) hstart
    exact le_trans hle (le_add (le_trans hstart hle) hy)
  | cons_cons y _ ih =>
    intro start start' hstart hle
    have hy := hys y (List.mem_cons_self ..)
    apply ih fun z hz => hys z (List.mem_cons_of_mem y hz)
    · exact le_trans hstart (le_add hstart hy)
    · exact add_mono hstart hy hle (le_self (isNaN_eq_false_of_le hy).2)

/-! ## Differences from a number of at most 100 -/

theorem denotes_sub_of_le_hundred {u v : EReal} (hx : Denotes x u) (hu : u ≤ 100)
    (hy : Denotes y v) (hv : 0 ≤ v) : Denotes (x - y) (nearest (u - v)) := by
  apply hx.sub hy
  rintro (⟨rfl, -⟩ | ⟨-, htop⟩)
  · exact absurd hu (by rw [hundred_eq]; simp)
  · rw [EReal.neg_eq_top_iff] at htop
    exact absurd hv (by rw [htop]; simp)

theorem nearest_sub_le_hundred {u v : EReal} (hu : u ≤ 100) (hv : 0 ≤ v) :
    nearest (u - v) ≤ 100 :=
  calc nearest (u - v) ≤ nearest 100 :=
        nearest_mono ((EReal.sub_le_sub hu hv).trans_eq (sub_zero _))
    _ = 100 := denotes_hundred.nearest_eq

theorem sub_mono (hx : x ≤ x') (hx' : x' ≤ 100.0) (hy : y' ≤ y) (hy' : 0.0 ≤ y') :
    x - y ≤ x' - y' := by
  obtain ⟨u, hu, hu₁⟩ := exists_of_le_hundred (le_trans hx hx')
  obtain ⟨u', hu', hu₁'⟩ := exists_of_le_hundred hx'
  obtain ⟨v, hv, hv₀⟩ := exists_of_nonneg (le_trans hy' hy)
  obtain ⟨v', hv', hv₀'⟩ := exists_of_nonneg hy'
  have hdifference := denotes_sub_of_le_hundred hu hu₁ hv hv₀
  have hdifference' := denotes_sub_of_le_hundred hu' hu₁' hv' hv₀'
  rw [hdifference.le_iff hdifference']
  exact nearest_mono (EReal.sub_le_sub ((hu.le_iff hu').mp hx) ((hv'.le_iff hv).mp hy))

/-- Taking a finite number away keeps the order, wherever the two numbers lie. -/
theorem sub_mono_left {b : ℝ} (hy : Denotes y b) (h : x ≤ x') : x - y ≤ x' - y := by
  obtain ⟨u, v, hu, hv, huv⟩ := exists_of_le h
  have hdifference := hu.sub hy (not_cancels_of_coe_right u (-b))
  have hdifference' := hv.sub hy (not_cancels_of_coe_right v (-b))
  rw [hdifference.le_iff hdifference']
  exact nearest_mono (EReal.sub_le_sub huv le_rfl)

theorem sub_le_hundred (hx : x ≤ 100.0) (hy : 0.0 ≤ y) : x - y ≤ 100.0 := by
  obtain ⟨u, hu, hu₁⟩ := exists_of_le_hundred hx
  obtain ⟨v, hv, hv₀⟩ := exists_of_nonneg hy
  rw [(denotes_sub_of_le_hundred hu hu₁ hv hv₀).le_iff denotes_hundred]
  exact nearest_sub_le_hundred hu₁ hv₀

theorem sub_le_left (hx : x ≤ 100.0) (hy : 0.0 ≤ y) : x - y ≤ x := by
  obtain ⟨u, hu, hu₁⟩ := exists_of_le_hundred hx
  obtain ⟨v, hv, hv₀⟩ := exists_of_nonneg hy
  rw [(denotes_sub_of_le_hundred hu hu₁ hv hv₀).le_iff hu]
  calc nearest (u - v) ≤ nearest u :=
        nearest_mono ((EReal.sub_le_sub le_rfl hv₀).trans_eq (sub_zero u))
    _ = u := hu.nearest_eq

/-- What a number of at most 100 lacks of it. -/
theorem lack_mono (hx : x ≤ x') (hx' : x' ≤ 100.0) :
    0.0 ≤ 100.0 - x' ∧ 100.0 - x' ≤ 100.0 - x := by
  obtain ⟨u, u', hu, hu', huu⟩ := exists_of_le hx
  obtain ⟨w, hw, hw₁⟩ := exists_of_le_hundred hx'
  have hfinite (v : EReal) : ¬ Cancels 100 (-v) := by
    rw [hundred_eq]
    exact not_cancels_of_coe_left _ _
  have hlack := denotes_hundred.sub hu (hfinite u)
  have hlack' := denotes_hundred.sub hu' (hfinite u')
  rw [hlack'.le_iff hlack, denotes_zero.le_iff hlack']
  rw [hw.unique hu'] at hw₁
  have hzero : (0 : EReal) = 100 - 100 := by
    rw [hundred_eq, ← EReal.coe_sub, sub_self, EReal.coe_zero]
  refine ⟨nearest_nonneg ?_, nearest_mono (EReal.sub_le_sub le_rfl huu)⟩
  exact hzero.le.trans (EReal.sub_le_sub le_rfl hw₁)

/-! ## Products, quotients and limits -/

theorem mul_mono {a b : ℝ} {w : ℝ} (hx : Denotes x a) (hx' : Denotes x' b) (hy : Denotes y w)
    (hw : 0 ≤ w) (h : a ≤ b) : x * y ≤ x' * y := by
  have hfinite (r : ℝ) : ¬ Annihilates r w := by
    rintro (⟨-, htop | hbot⟩ | ⟨htop | hbot, -⟩)
    · exact EReal.coe_ne_top w htop
    · exact EReal.coe_ne_bot w hbot
    · exact EReal.coe_ne_top r htop
    · exact EReal.coe_ne_bot r hbot
  rw [(hx.mul hy (hfinite a)).le_iff (hx'.mul hy (hfinite b))]
  apply nearest_mono
  exact mul_le_mul_of_nonneg_right (EReal.coe_le_coe_iff.mpr h) (EReal.coe_nonneg.mpr hw)

theorem div_mono {d : ℝ} (hy : Denotes y d) (hd : 0 < d) (h : x ≤ x') : x / y ≤ x' / y := by
  obtain ⟨u, v, hu, hv, huv⟩ := exists_of_le h
  rw [(hu.div hy hd.ne').le_iff (hv.div hy hd.ne')]
  apply nearest_mono
  exact EReal.div_le_div_right_of_nonneg (EReal.coe_nonneg.mpr hd.le) huv

theorem clampScore_mono (h : x ≤ y) : clampScore x ≤ clampScore y := by
  obtain ⟨u, v, hu, hv, huv⟩ := exists_of_le h
  rw [(denotes_clampScore hu).le_iff (denotes_clampScore hv)]
  exact max_le_max le_rfl (min_le_min huv le_rfl)

theorem clampScore_le (h : x ≤ y) (hy : 0.0 ≤ y) : clampScore x ≤ y := by
  obtain ⟨u, v, hu, hv, huv⟩ := exists_of_le h
  rw [denotes_zero.le_iff hv] at hy
  rw [(denotes_clampScore hu).le_iff hv]
  exact max_le hy ((min_le_left u 100).trans huv)

theorem inUnitInterval_iff : inUnitInterval x = true ↔ 0.0 ≤ x ∧ x ≤ 1.0 := by
  unfold inUnitInterval
  rw [Bool.and_eq_true, decide_eq_true_eq, decide_eq_true_eq]

end CodeQuality.Double
