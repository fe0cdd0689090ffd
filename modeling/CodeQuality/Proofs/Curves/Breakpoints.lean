import CodeQuality.Profile
import CodeQuality.Proofs.Curves.Order
import CodeQuality.Proofs.Double.Order

/-!
Where the parts of a penalty curve meet.

Of an accepted curve whose two given penalties are whole numbers, the line ends at exactly the
first penalty and the first power at exactly the second, whichever of the two parts are empty: a
length divided by itself is one, one has no power but itself, and sums of whole numbers have no
error. So each part stays between its two ends.
-/

namespace CodeQuality

open Double

/-- A whole number of at most `2 ^ 53`, up to which doubles leave out no whole number. -/
def IsExactWhole (x : Float) : Prop := ∃ n : ℤ, n ≤ 2 ^ 53 ∧ Denotes x (n : ℝ)

namespace Double

variable {x lo hi : Float} {a b : ℝ}

/-- What lies between two finite doubles is finite. -/
theorem exists_real_between (hlo : Denotes lo a) (hhi : Denotes hi b) (h₁ : lo < x) (h₂ : x ≤ hi) :
    ∃ v : ℝ, Denotes x v ∧ a < v ∧ v ≤ b := by
  obtain ⟨u, hu⟩ := exists_denotes (isNaN_eq_false_of_lt h₁).2
  rw [hlo.lt_iff hu] at h₁
  rw [hu.le_iff hhi] at h₂
  induction u with
  | bot => exact absurd h₁ not_lt_bot
  | top => exact absurd h₂ (not_le.mpr (EReal.coe_lt_top b))
  | coe v => exact ⟨v, hu, EReal.coe_lt_coe_iff.mp h₁, EReal.coe_le_coe_iff.mp h₂⟩

theorem lt_of_not_le (hlo : Denotes lo a) (h₁ : ¬ x ≤ lo) (h₂ : x ≤ hi) : lo < x := by
  obtain ⟨u, hu⟩ := exists_denotes (isNaN_eq_false_of_le h₂).1
  rw [hu.le_iff hlo] at h₁
  exact (hlo.lt_iff hu).mpr (not_le.mp h₁)

end Double

namespace Curve

/-- The penalties given for the second and the third breakpoint are whole. -/
structure HasWholePenalties (c : Curve) : Prop where
  linear : IsExactWhole c.linearPenalty
  quadratic : IsExactWhole c.quadraticPenalty

/-- Each breakpoint costs what is given for it, a metric between two breakpoints costs no less than
the first and no more than the second, and no part of a curve divides by an empty length. -/
structure MeetsBreakpoints (power : Power) (c : Curve) : Prop where
  atExcellent : (c.penalty power c.excellentMax == 0.0) = true
  atLinear : (c.penalty power c.linearMax == c.linearPenalty) = true
  atQuadratic : (c.penalty power c.quadraticMax == c.quadraticPenalty) = true
  toLinear : ∀ x, x ≤ c.linearMax →
    0.0 ≤ c.penalty power x ∧ c.penalty power x ≤ c.linearPenalty
  toQuadratic : ∀ x, c.linearMax < x → x ≤ c.quadraticMax →
    c.linearPenalty ≤ c.penalty power x ∧ c.penalty power x ≤ c.quadraticPenalty
  linearLength : ∀ x, c.excellentMax < x → x ≤ c.linearMax → 0.0 < c.linearMax - c.excellentMax
  quadraticLength : ∀ x, c.linearMax < x → x ≤ c.quadraticMax →
    0.0 < c.quadraticMax - c.linearMax

namespace Reads

variable {c : Curve} {r : RealCurve} {x : Float} {power : Power}

/-! ### Empty parts -/

theorem linearPenalty_of_empty (hc : c.Reads r) (h : c.fault? = none)
    (hempty : r.excellentMax = r.linearMax) : r.linearPenalty = 0 := by
  unfold fault? at h
  split_ifs at h with _ _ _ _ hjump
  have hbreaks : (c.linearMax == c.excellentMax) = true :=
    (hc.linearMax.beq_iff hc.excellentMax).mpr (by rw [hempty])
  have hzero : (c.linearPenalty == 0.0) = true := by
    simpa [hbreaks, bne] using hjump
  exact EReal.coe_eq_zero.mp ((hc.linearPenalty.beq_iff denotes_zero).mp hzero)

theorem quadraticPenalty_of_empty (hc : c.Reads r) (h : c.fault? = none)
    (hempty : r.linearMax = r.quadraticMax) : r.quadraticPenalty = r.linearPenalty := by
  unfold fault? at h
  split_ifs at h with _ _ _ _ _ hjump
  have hbreaks : (c.quadraticMax == c.linearMax) = true :=
    (hc.quadraticMax.beq_iff hc.linearMax).mpr (by rw [hempty])
  have hequal : (c.quadraticPenalty == c.linearPenalty) = true := by
    simpa [hbreaks, bne] using hjump
  exact EReal.coe_eq_coe_iff.mp ((hc.quadraticPenalty.beq_iff hc.linearPenalty).mp hequal)

/-! ### Whole penalties -/

/-- The two penalties as counts of points. -/
theorem exists_points (hc : c.Reads r) (h : c.HasWholePenalties) :
    ∃ m n : ℕ, m ≤ n ∧ n ≤ 2 ^ 53 ∧ r.linearPenalty = m ∧ r.quadraticPenalty = n := by
  obtain ⟨k, -, hk⟩ := h.linear
  obtain ⟨l, hl₁, hl⟩ := h.quadratic
  have hlinear : r.linearPenalty = k := EReal.coe_injective (hc.linearPenalty.unique hk)
  have hquadratic : r.quadraticPenalty = l := EReal.coe_injective (hc.quadraticPenalty.unique hl)
  have hk₀ : 0 ≤ k := by
    have hnonneg := hc.linearPenalty_nonneg
    rw [hlinear] at hnonneg
    exact_mod_cast hnonneg
  have hkl : k ≤ l := by
    have hle := hc.penalties_le
    rw [hlinear, hquadratic] at hle
    exact_mod_cast hle
  obtain ⟨m, rfl⟩ := Int.eq_ofNat_of_zero_le hk₀
  obtain ⟨n, rfl⟩ := Int.eq_ofNat_of_zero_le (hk₀.trans hkl)
  exact ⟨m, n, by omega, by omega, by rw [hlinear, Int.cast_natCast],
    by rw [hquadratic, Int.cast_natCast]⟩

theorem toWhole_linearPenalty (hc : c.Reads r) (h : c.HasWholePenalties) :
    toWhole r.linearPenalty = r.linearPenalty := by
  obtain ⟨m, n, -, -, hm, -⟩ := hc.exists_points h
  rw [hm, toWhole_natCast]

/-- The first power ends at the quadratic penalty: neither the gain nor the sum is rounded. -/
theorem toWhole_quadraticEnd (hc : c.Reads r) (h : c.HasWholePenalties) :
    toWhole (raised r.linearPenalty 1 r.quadraticGain) = r.quadraticPenalty := by
  obtain ⟨m, n, hmn, hn, hm, hq⟩ := hc.exists_points h
  have hgain : r.quadraticGain = ((n - m : ℕ) : ℝ) := by
    unfold RealCurve.quadraticGain
    rw [hm, hq, ← Nat.cast_sub hmn, nearest_natCast (by omega), EReal.toReal_coe]
  unfold raised
  rw [one_mul, hgain, hm, hq, nearest_natCast (by omega), ← EReal.coe_add, ← Nat.cast_add,
    Nat.add_sub_cancel' hmn, nearest_natCast hn, toWhole_natCast]

/-! ### The ends of the parts -/

/-- Whichever double denotes the second breakpoint, it costs the linear penalty. -/
theorem denotes_penalty_linearMax (hc : c.Reads r) (h : c.fault? = none)
    (hwhole : c.HasWholePenalties) (hx : Denotes x r.linearMax) :
    Denotes (c.penalty power x) r.linearPenalty := by
  rcases hc.first_le.eq_or_lt with hempty | hlt
  · -- The breakpoint belongs to the free part, and there is no penalty to reach.
    rw [hc.penalty_free hx hempty.ge, hc.linearPenalty_of_empty h hempty]
    exact denotes_zero
  · obtain ⟨-, hpos, hlength⟩ := hc.linearLength hlt
    have hend : r.linear r.linearMax = r.linearPenalty := by
      unfold RealCurve.linear
      rw [progress_eq_one hpos hlength, one_mul, hc.linearPenalty.nearest_eq]
    have hpenalty : Denotes (c.penalty power x) (toWhole (r.linear r.linearMax)) :=
      hc.denotes_penalty_linear hx hlt le_rfl
    rwa [hend, hc.toWhole_linearPenalty hwhole] at hpenalty

theorem denotes_penalty_quadraticMax (hc : c.Reads r) (h : power.Monotone)
    (hfault : c.fault? = none) (hwhole : c.HasWholePenalties) :
    Denotes (c.penalty power c.quadraticMax) r.quadraticPenalty := by
  rcases hc.second_le.eq_or_lt with hempty | hlt
  · -- The breakpoint is the one before, which costs as much.
    rw [hc.quadraticPenalty_of_empty hfault hempty]
    exact hc.denotes_penalty_linearMax hfault hwhole (hempty ▸ hc.quadraticMax)
  · rw [← hc.toWhole_quadraticEnd hwhole]
    exact hc.denotes_penalty_end h hlt

/-! ### Between the ends -/

theorem penalty_le_linearPenalty_of_le (hc : c.Reads r) (h : power.Monotone)
    (hwhole : c.HasWholePenalties) (hx : x ≤ c.linearMax) :
    0.0 ≤ c.penalty power x ∧ c.penalty power x ≤ c.linearPenalty := by
  by_cases hfree : x ≤ c.excellentMax
  · have hpenalty : c.penalty power x = 0.0 := if_pos hfree
    rw [hpenalty]
    exact ⟨le_self denotes_zero.isNaN_eq_false,
      nonneg_of_denotes hc.linearPenalty (EReal.coe_nonneg.mpr hc.linearPenalty_nonneg)⟩
  · obtain ⟨a, ha, h₁, h₂⟩ := exists_real_between hc.excellentMax hc.linearMax
      (lt_of_not_le hc.excellentMax hfree hx) hx
    have hpenalty : Denotes (c.penalty power x) (toWhole (r.linear a)) :=
      hc.denotes_penalty_linear ha h₁ h₂
    refine ⟨nonneg_of_denotes hpenalty (hc.penalty_nonneg h ha hpenalty), ?_⟩
    rw [hpenalty.le_iff hc.linearPenalty, ← hc.toWhole_linearPenalty hwhole]
    exact hc.penalty_le_linearPenalty ha h₁ h₂ hpenalty

theorem penalty_between_of_lt (hc : c.Reads r) (h : power.Monotone)
    (hwhole : c.HasWholePenalties) (h₁ : c.linearMax < x) (h₂ : x ≤ c.quadraticMax) :
    c.linearPenalty ≤ c.penalty power x ∧ c.penalty power x ≤ c.quadraticPenalty := by
  obtain ⟨a, ha, hlow, hhigh⟩ := exists_real_between hc.linearMax hc.quadraticMax h₁ h₂
  obtain ⟨w, -, -, -, hpenalty⟩ := hc.denotes_penalty_quadratic h ha hlow hhigh
  constructor
  · rw [hc.linearPenalty.le_iff hpenalty, ← hc.toWhole_linearPenalty hwhole]
    exact hc.linearPenalty_le_penalty h ha hlow hpenalty
  · rw [hpenalty.le_iff hc.quadraticPenalty, ← hc.toWhole_quadraticEnd hwhole]
    exact hc.penalty_le_end h ha hlow hhigh hpenalty

/-! ### Lengths that are divided by -/

theorem linearLength_pos (hc : c.Reads r) (h₁ : c.excellentMax < x) (h₂ : x ≤ c.linearMax) :
    0.0 < c.linearMax - c.excellentMax := by
  obtain ⟨a, -, hlow, hhigh⟩ := exists_real_between hc.excellentMax hc.linearMax h₁ h₂
  obtain ⟨hlength, hpos, -⟩ := hc.linearLength (hlow.trans_le hhigh)
  exact (denotes_zero.lt_iff hlength).mpr (EReal.coe_pos.mpr hpos)

theorem quadraticLength_pos (hc : c.Reads r) (h₁ : c.linearMax < x) (h₂ : x ≤ c.quadraticMax) :
    0.0 < c.quadraticMax - c.linearMax := by
  obtain ⟨a, -, hlow, hhigh⟩ := exists_real_between hc.linearMax hc.quadraticMax h₁ h₂
  obtain ⟨hlength, hpos, -⟩ := hc.quadraticLength (hlow.trans_le hhigh)
  exact (denotes_zero.lt_iff hlength).mpr (EReal.coe_pos.mpr hpos)

theorem meetsBreakpoints (hc : c.Reads r) (h : power.Monotone) (hfault : c.fault? = none)
    (hwhole : c.HasWholePenalties) : c.MeetsBreakpoints power where
  atExcellent := by
    rw [hc.penalty_free hc.excellentMax le_rfl]
    exact (denotes_zero.beq_iff denotes_zero).mpr rfl
  atLinear :=
    ((hc.denotes_penalty_linearMax hfault hwhole hc.linearMax).beq_iff hc.linearPenalty).mpr rfl
  atQuadratic :=
    ((hc.denotes_penalty_quadraticMax h hfault hwhole).beq_iff hc.quadraticPenalty).mpr rfl
  toLinear _ hx := hc.penalty_le_linearPenalty_of_le h hwhole hx
  toQuadratic _ h₁ h₂ := hc.penalty_between_of_lt h hwhole h₁ h₂
  linearLength _ h₁ h₂ := hc.linearLength_pos h₁ h₂
  quadraticLength _ h₁ h₂ := hc.quadraticLength_pos h₁ h₂

end Reads

theorem isExactWhole_of_eq {x : Float} {n : ℕ} (h : x = wholeFloat n) (hn : n ≤ 2 ^ 53) :
    IsExactWhole x := by
  refine ⟨n, by exact_mod_cast hn, ?_⟩
  rw [h, Int.cast_natCast]
  exact denotes_wholeFloat hn

/-- The standard curves are accepted and have whole penalties. -/
theorem hasWholePenalties_standard {name : String} {c : Curve}
    (h : (name, c) ∈ MetricCurves.standard.named) : c.fault? = none ∧ c.HasWholePenalties := by
  have htwenty : IsExactWhole 20.0 := isExactWhole_of_eq (n := 20) (by decide) (by norm_num)
  have hthirty : IsExactWhole 30.0 := isExactWhole_of_eq (n := 30) (by decide) (by norm_num)
  have hseventy : IsExactWhole 70.0 := isExactWhole_of_eq (n := 70) (by decide) (by norm_num)
  simp only [MetricCurves.named, List.mem_cons, Prod.mk.injEq, List.not_mem_nil, or_false] at h
  rcases h with ⟨-, rfl⟩ | ⟨-, rfl⟩ | ⟨-, rfl⟩ | ⟨-, rfl⟩
  · exact ⟨by decide, hthirty, hseventy⟩
  · exact ⟨by decide, htwenty, htwenty⟩
  · exact ⟨by decide, hthirty, hseventy⟩
  · exact ⟨by decide, hthirty, hseventy⟩

/-- An accepted curve with whole penalties meets its breakpoints, whichever of its parts are empty;
the standard curves are of this kind. -/
theorem penalty_breakpoints {power : Power} (h : power.Monotone) :
    (∀ c : Curve, c.fault? = none → c.HasWholePenalties → c.MeetsBreakpoints power) ∧
    ∀ entry ∈ MetricCurves.standard.named,
      entry.2.fault? = none ∧ entry.2.HasWholePenalties := by
  constructor
  · intro c hfault hwhole
    obtain ⟨r, hc⟩ := exists_reads hfault
    exact hc.meetsBreakpoints h hfault hwhole
  · intro entry hentry
    exact hasWholePenalties_standard hentry

/-- A curve without a line: the first power starts where the free part ends. -/
def lineless : Curve := { complexity with linearMax := 10.0, linearPenalty := 0.0 }

theorem penalty_breakpoints_lineless :
    Power.square.Monotone ∧ lineless.fault? = none ∧ lineless.HasWholePenalties ∧
      lineless.MeetsBreakpoints Power.square := by
  have hfault : lineless.fault? = none := by decide
  have hwhole : lineless.HasWholePenalties :=
    ⟨isExactWhole_of_eq (n := 0) zero_eq_wholeFloat (by norm_num),
      isExactWhole_of_eq (n := 70) (by decide) (by norm_num)⟩
  exact ⟨Power.monotone_square, hfault, hwhole,
    (penalty_breakpoints Power.monotone_square).1 lineless hfault hwhole⟩

end Curve

end CodeQuality
