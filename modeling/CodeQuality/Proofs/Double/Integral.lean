import CodeQuality.Proofs.Double.Order

/-!
Whole numbers of any size, infinity included.

Rounding keeps a whole number whole, since doubles from `2 ^ 53` on have no digits below the point.
So sums of whole numbers are whole, and whole numbers that are taken from 100 one after the other
leave exactly what they leave without rounding, up to the first number that leaves the exact range:
from there on both what is computed and what is exact are below zero.
-/

namespace CodeQuality.Double

/-- A whole number from zero on, or infinity. -/
def IsIntegral (v : EReal) : Prop := v = ⊤ ∨ ∃ n : ℕ, v = ((n : ℝ) : EReal)

theorem isIntegral_natCast (n : ℕ) : IsIntegral ((n : ℝ) : EReal) := .inr ⟨n, rfl⟩

theorem isIntegral_zero : IsIntegral 0 := .inr ⟨0, by rw [Nat.cast_zero, EReal.coe_zero]⟩

theorem IsIntegral.nonneg {v : EReal} (h : IsIntegral v) : 0 ≤ v := by
  rcases h with rfl | ⟨n, rfl⟩
  · exact le_top
  · exact EReal.coe_nonneg.mpr (Nat.cast_nonneg n)

theorem isIntegral_toWhole {v : EReal} (h : 0 ≤ v) : IsIntegral (toWhole v) := by
  induction v with
  | bot => exact absurd h (by simp)
  | top => exact .inl rfl
  | coe r => exact isIntegral_natCast _

/-! ## Rounding -/

theorem spacing_natCast_nonneg {n : ℕ} (h : 2 ^ 53 < n) : 0 ≤ spacing n := by
  have hn : (2 : ℝ) ^ (53 : ℤ) ≤ n := by exact_mod_cast h.le
  have hlog : Int.log 2 ((2 : ℝ) ^ (53 : ℤ)) ≤ Int.log 2 (n : ℝ) :=
    Int.log_mono_right (two_zpow_pos 53) hn
  have hzpow : Int.log 2 ((2 : ℝ) ^ (53 : ℤ)) = 53 := by
    exact_mod_cast Int.log_zpow (R := ℝ) (b := 2) (by norm_num) 53
  unfold spacing
  omega

theorem exists_roundMagnitude_natCast (n : ℕ) : ∃ m : ℕ, roundMagnitude n = m := by
  by_cases h : n ≤ 2 ^ 53
  · exact ⟨n, (isMagnitude_natCast h).roundMagnitude_eq⟩
  · obtain ⟨k, hk⟩ := Int.eq_ofNat_of_zero_le (spacing_natCast_nonneg (not_le.mp h))
    refine ⟨nearestEven (n / 2 ^ spacing n) * 2 ^ k, ?_⟩
    unfold roundMagnitude
    rw [hk]
    push_cast
    rw [zpow_natCast]

theorem isIntegral_nearest_natCast (n : ℕ) : IsIntegral (nearest ((n : ℝ) : EReal)) := by
  obtain ⟨m, hm⟩ := exists_roundMagnitude_natCast n
  rw [nearest_coe, roundReal_of_nonneg (Nat.cast_nonneg n), hm]
  unfold overflow
  split_ifs with hhigh hlow
  · exact .inl rfl
  · have := limit_pos
    have : (0 : ℝ) ≤ m := Nat.cast_nonneg m
    linarith
  · exact isIntegral_natCast m

theorem IsIntegral.nearest_add {u v : EReal} (hu : IsIntegral u) (hv : IsIntegral v) :
    IsIntegral (nearest (u + v)) := by
  rcases hu with rfl | ⟨m, rfl⟩
  · rw [EReal.top_add_of_ne_bot]
    · exact .inl rfl
    · exact (EReal.bot_lt_zero.trans_le hv.nonneg).ne'
  rcases hv with rfl | ⟨n, rfl⟩
  · rw [EReal.coe_add_top]
    exact .inl rfl
  · rw [← EReal.coe_add, ← Nat.cast_add]
    exact isIntegral_nearest_natCast (m + n)

/-- Whole numbers add up to such a number, wherever on the way sums are rounded. -/
theorem exists_sum_isIntegral (xs : List Float) (hxs : ∀ x ∈ xs, ∃ v, Denotes x v ∧ IsIntegral v) :
    ∀ start : Float, (∃ v, Denotes start v ∧ IsIntegral v) →
      ∃ v, Denotes (xs.foldl (· + ·) start) v ∧ IsIntegral v := by
  induction xs with
  | nil => exact fun start h => h
  | cons x rest ih =>
    rintro start ⟨u, hu, hwhole⟩
    obtain ⟨v, hv, hwhole'⟩ := hxs x (List.mem_cons_self ..)
    apply ih fun y hy => hxs y (List.mem_cons_of_mem x hy)
    exact ⟨_, hu.add hv (not_cancels_of_nonneg hwhole.nonneg hwhole'.nonneg),
      hwhole.nearest_add hwhole'⟩

theorem nearest_intCast {k : ℤ} (hlow : -2 ^ 53 ≤ k) (hhigh : k ≤ 2 ^ 53) :
    nearest ((k : ℝ) : EReal) = ((k : ℝ) : EReal) := by
  rcases Int.le_total 0 k with hnonneg | hneg
  · obtain ⟨n, rfl⟩ := Int.eq_ofNat_of_zero_le hnonneg
    rw [Int.cast_natCast]
    exact nearest_natCast (by omega)
  · obtain ⟨n, hn⟩ := Int.eq_ofNat_of_zero_le (Int.neg_nonneg_of_nonpos hneg)
    obtain rfl : k = -(n : ℤ) := by omega
    rw [Int.cast_neg, Int.cast_natCast]
    exact (isMagnitude_natCast (n := n) (by omega)).nearest_neg_eq

/-! ## Differences -/

/-- What is computed against what is exact: one whole number of at most 100, or two numbers that
are both below zero. -/
inductive Follows : EReal → EReal → Prop
  | exact (k : ℤ) (low : -2 ^ 53 ≤ k) (high : k ≤ 100) : Follows ((k : ℝ) : EReal) ((k : ℝ) : EReal)
  | below {v u : EReal} (computed : v ≤ -1) (exact : u ≤ -1) : Follows v u

theorem nearest_neg_one : nearest (-1) = -1 := by
  have hone := nearest_intCast (k := -1) (by norm_num) (by norm_num)
  simpa using hone

theorem follows_hundred : Follows 100 100 := by
  have h := Follows.exact 100 (by norm_num) le_rfl
  simpa [hundred_eq] using h

/-- Taking a whole number away keeps what is computed on what is exact. -/
theorem Follows.sub {v u w : EReal} (h : Follows v u) (hw : IsIntegral w) :
    Follows (nearest (v - w)) (u - w) := by
  -- Below -1 nothing comes back, since -1 is a double and rounding is monotone.
  have hbelow {r : EReal} (hr : r ≤ -1) : nearest r ≤ -1 := nearest_neg_one ▸ nearest_mono hr
  cases h with
  | below computed exact =>
    have hsub {r : EReal} (hr : r ≤ -1) : r - w ≤ -1 :=
      (EReal.sub_le_sub hr hw.nonneg).trans_eq (sub_zero _)
    exact .below (hbelow (hsub computed)) (hsub exact)
  | exact k low high =>
    rcases hw with rfl | ⟨n, rfl⟩
    · rw [EReal.sub_top]
      exact .below bot_le bot_le
    have hdifference : ((k : ℝ) : EReal) - ((n : ℝ) : EReal) = (((k - n : ℤ) : ℝ) : EReal) := by
      rw [← EReal.coe_sub, Int.cast_sub, Int.cast_natCast]
    rw [hdifference]
    by_cases hlow : -2 ^ 53 ≤ k - (n : ℤ)
    · rw [nearest_intCast hlow (by omega)]
      exact .exact _ hlow (by omega)
    · -- Beyond the exact range only the sign is known.
      have hneg : (((k - n : ℤ) : ℝ) : EReal) ≤ -1 := by
        have hint : k - (n : ℤ) ≤ (-1 : ℤ) := by omega
        have hone : (-1 : EReal) = (((-1 : ℤ) : ℝ) : EReal) := by simp
        rw [hone, EReal.coe_le_coe_iff, Int.cast_le]
        exact hint
      exact .below (hbelow hneg) hneg

theorem Follows.le_hundred {v u : EReal} (h : Follows v u) : v ≤ 100 := by
  cases h with
  | below computed exact =>
    exact computed.trans ((by norm_num : (-1 : EReal) ≤ 0).trans (by norm_num))
  | exact k low high =>
    rw [hundred_eq]
    apply EReal.coe_le_coe_iff.mpr
    exact_mod_cast high

/-- Within the scale of scores there is no difference between the two. -/
theorem Follows.clamp_eq {v u : EReal} (h : Follows v u) : max 0 (min v 100) = max 0 u := by
  rw [min_eq_left h.le_hundred]
  cases h with
  | below computed exact =>
    have hneg : (-1 : EReal) ≤ 0 := by norm_num
    rw [max_eq_left (computed.trans hneg), max_eq_left (exact.trans hneg)]
  | exact k low high => rfl

/-- What a whole score lacks of 100 is exact. -/
theorem denotes_lack {x : Float} {n : ℕ} (hx : Denotes x (n : ℝ)) (hn : n ≤ 100) :
    Denotes (100.0 - x) (((100 - n : ℕ) : ℝ) : EReal) := by
  have hlack := denotes_hundred.sub hx (by
    rw [hundred_eq]
    exact not_cancels_of_coe_left _ _)
  rwa [hundred_eq, ← EReal.coe_sub, ← Nat.cast_sub hn, nearest_natCast (by omega)] at hlack

/-- A double that follows an exact number. -/
def Tracks (x : Float) (u : EReal) : Prop := ∃ v, Denotes x v ∧ Follows v u

theorem tracks_hundred : Tracks 100.0 100 := ⟨100, denotes_hundred, follows_hundred⟩

theorem Tracks.sub {x y : Float} {u w : EReal} (h : Tracks x u) (hy : Denotes y w)
    (hw : IsIntegral w) : Tracks (x - y) (u - w) := by
  obtain ⟨v, hx, hv⟩ := h
  exact ⟨_, denotes_sub_of_le_hundred hx hv.le_hundred hy hw.nonneg, hv.sub hw⟩

theorem Tracks.clampScore {x : Float} {u : EReal} (h : Tracks x u) :
    Denotes (clampScore x) (max 0 u) := by
  obtain ⟨v, hx, hv⟩ := h
  exact hv.clamp_eq ▸ denotes_clampScore hx

end CodeQuality.Double
