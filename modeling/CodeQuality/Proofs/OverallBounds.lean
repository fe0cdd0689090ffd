import CodeQuality.Proofs.Double.Scale
import CodeQuality.Proofs.Double.Sums
import CodeQuality.Proofs.Double.Tolerance
import CodeQuality.Proofs.ProjectMeans

/-!
The overall score between the means.

Accepted shares make one within the tolerance of the check, and the weighted sum is rounded five
times. So the overall score lies between the least and the greatest mean up to one part in a
billion, and it may leave this range by as much, in particular where all means are the same. A
project without files or with full scores only has full means, and the built-in shares give it the
full overall score.
-/

namespace CodeQuality

open Double

/-- A few additions on the scale do not overflow. -/
theorem mul_roundoffFactor_pow_lt_limit {exact : ℝ} {count : ℕ} (h : exact ≤ 300)
    (hcount : count ≤ 3) : exact * roundoffFactor ^ count < limit := by
  have hpow : roundoffFactor ^ count ≤ roundoffFactor ^ 3 :=
    pow_le_pow_right₀ one_le_roundoffFactor hcount
  have hlimit : (2 : ℝ) ^ (10 : ℤ) ≤ limit := two_zpow_mono (by norm_num)
  calc exact * roundoffFactor ^ count ≤ 300 * roundoffFactor ^ 3 :=
        mul_le_mul h hpow (pow_pos roundoffFactor_pos count).le (by norm_num)
    _ < 2 ^ (10 : ℤ) := by
        rw [roundoffFactor_eq]
        norm_num
    _ ≤ limit := hlimit

/-! ## Shares -/

namespace Weighting

variable {w : Weighting}

theorem isAmount_share (h : w.fault? = none) {share : Float} (hshare : share ∈ w.shares.toList) :
    IsAmount share ∧ amount share ≤ 1 := by
  obtain ⟨a, ha, ha₀, ha₁⟩ := (inUnit_shares h).exists_share hshare
  exact ⟨⟨a, ha, ha₀⟩, ha.amount_eq ▸ ha₁⟩

/-- The sum of the shares without rounding. -/
noncomputable def exactShares (w : Weighting) : ℝ := exactSum w.shares.toList

/-- How far the exact sum of accepted shares may be from one: the tolerance of the check and what
the additions round. -/
noncomputable def sharesTolerance : ℝ := 1.0000004e-9

theorem exactShares_bounds (h : w.fault? = none) : 0 ≤ w.exactShares ∧ w.exactShares ≤ 3 := by
  have hshares : ∀ share ∈ w.shares.toList, IsAmount share :=
    fun share hshare => (isAmount_share h hshare).1
  refine ⟨exactSum_nonneg hshares, ?_⟩
  have hle := List.sum_le_card_nsmul (w.shares.toList.map amount) 1
    (List.forall_mem_map.mpr fun share hshare => (isAmount_share h hshare).2)
  rw [List.length_map] at hle
  exact hle.trans_eq (by simp [Dimensions.toList])

/-- What the check looks at is the sum after three additions. -/
theorem exists_sum (h : w.fault? = none) :
    ∃ r : ℝ, Denotes w.sum r ∧ 0 ≤ r ∧ Near 3 r w.exactShares := by
  have hshares : ∀ share ∈ w.shares.toList, IsAmount share :=
    fun share hshare => (isAmount_share h hshare).1
  have hzero : Denotes (-0.0) ((0 : ℝ) : EReal) := by exact_mod_cast denotes_neg_zero
  obtain ⟨v, hv, hsum⟩ := nearSum_sum hshares hzero le_rfl
  rw [zero_add] at hsum
  have hbound : w.exactShares ≤ 300 := (exactShares_bounds h).2.trans (by norm_num)
  obtain ⟨r, rfl, hr, hnear⟩ :=
    hsum.exists_near (mul_roundoffFactor_pow_lt_limit hbound le_rfl)
  exact ⟨r, hv, hr, hnear⟩

/-- The check lets pass what is within its tolerance of one. -/
theorem abs_sub_one_le (h : w.fault? = none) {r : ℝ} (hr : Denotes w.sum r) (hr₀ : 0 ≤ r)
    (hr₁ : r ≤ 100) : |r - 1| ≤ 1e-9 := by
  unfold fault? at h
  split_ifs at h with hrange hsum
  rw [hr.tolerance_lt_iff hr₀ hr₁, not_lt] at hsum
  exact hsum

theorem abs_exactShares_sub_one_le (h : w.fault? = none) :
    |w.exactShares - 1| ≤ sharesTolerance := by
  obtain ⟨r, hr, hr₀, hnear⟩ := exists_sum h
  have hle := (exactShares_bounds h).2
  have hlow := hnear.le
  have hhigh := hnear.ge
  rw [roundoffFactor_eq] at hlow hhigh
  norm_num at hlow hhigh
  have hpass := abs_le.mp (abs_sub_one_le h hr hr₀ (by linarith))
  norm_num at hpass
  unfold sharesTolerance
  rw [abs_le]
  norm_num
  constructor <;> linarith

end Weighting

/-! ## The weighted sum -/

theorem IsScore.isAmount {x : Float} (h : IsScore x) : IsAmount x ∧ amount x ≤ 100 := by
  obtain ⟨u, hu, hu₀⟩ := exists_of_nonneg h.1
  obtain ⟨u', hu', hu₁⟩ := exists_of_le_hundred h.2
  rw [hu'.unique hu, hundred_eq] at hu₁
  obtain ⟨a, rfl, ha₀, ha₁⟩ := exists_real hu₀ hu₁
  rw [Nat.cast_ofNat] at ha₁
  exact ⟨⟨a, hu, ha₀⟩, hu.amount_eq ▸ ha₁⟩

/-- A score times a share, without rounding. -/
theorem product_bounds {x share : Float} (hx : IsScore x)
    (hshare : IsAmount share ∧ amount share ≤ 1) :
    0 ≤ amount x * amount share ∧ amount x * amount share ≤ 100 := by
  obtain ⟨hx, hx₁⟩ := hx.isAmount
  refine ⟨mul_nonneg hx.nonneg hshare.1.nonneg, ?_⟩
  calc amount x * amount share ≤ 100 * 1 :=
        mul_le_mul hx₁ hshare.2 hshare.1.nonneg (by norm_num)
    _ = 100 := mul_one _

theorem denotes_product {x share : Float} (hx : IsScore x)
    (hshare : IsAmount share ∧ amount share ≤ 1) :
    Denotes (x * share) (roundMagnitude (amount x * amount share) : ℝ) := by
  obtain ⟨hlow, hhigh⟩ := product_bounds hx hshare
  have hx' := hx.isAmount.1
  have hproduct := hx'.denotes.mul hshare.1.denotes
    (not_annihilates_of_nonneg (EReal.coe_nonneg.mpr hx'.nonneg) fun h => EReal.coe_ne_top _ h.1)
  rwa [← EReal.coe_mul, nearest_of_le_hundred hlow hhigh] at hproduct

namespace Dimensions

/-- The weighted sum without rounding. -/
noncomputable def exactDot (a b : Dimensions) : ℝ :=
  amount a.complexity * amount b.complexity + amount a.maintainability * amount b.maintainability
    + amount a.duplication * amount b.duplication

/-- The products, each of them rounded. -/
noncomputable def roundedTerms (a b : Dimensions) : ℝ :=
  roundMagnitude (amount a.complexity * amount b.complexity)
    + roundMagnitude (amount a.maintainability * amount b.maintainability)
    + roundMagnitude (amount a.duplication * amount b.duplication)

variable {means : Dimensions} {w : Weighting}

theorem abs_roundedTerms_sub_le (hmeans : ∀ x ∈ means.toList, IsScore x) (hw : w.fault? = none) :
    |means.roundedTerms w.shares - means.exactDot w.shares| ≤
      unitRoundoff * means.exactDot w.shares + 3 * underflowError := by
  obtain ⟨hc, hm, hd⟩ := of_pairs fun x hx share hshare =>
    abs_le.mp (abs_roundMagnitude_sub_le
      (product_bounds (hmeans x hx) (Weighting.isAmount_share hw hshare)).1)
  unfold roundedTerms exactDot
  rw [abs_le]
  constructor <;> linarith

theorem roundedTerms_bounds (hmeans : ∀ x ∈ means.toList, IsScore x) (hw : w.fault? = none) :
    0 ≤ means.roundedTerms w.shares ∧ means.roundedTerms w.shares ≤ 300 := by
  obtain ⟨hc, hm, hd⟩ := of_pairs fun x hx share hshare =>
    have hbounds := product_bounds (hmeans x hx) (Weighting.isAmount_share hw hshare)
    And.intro (roundMagnitude_nonneg (amount x * amount share))
      (roundMagnitude_le_hundred hbounds.1 hbounds.2)
  unfold roundedTerms
  constructor <;> linarith

/-- The weighted sum is two additions away from the rounded products. -/
theorem exists_dot_near (hmeans : ∀ x ∈ means.toList, IsScore x) (hw : w.fault? = none) :
    ∃ v : ℝ, Denotes (means.dot w.shares) v ∧ 0 ≤ v ∧ Near 2 v (means.roundedTerms w.shares) := by
  obtain ⟨hc, hm, hd⟩ := of_pairs fun x hx share hshare =>
    denotes_product (hmeans x hx) (Weighting.isAmount_share hw hshare)
  have hrest : ∀ x ∈ [means.maintainability * w.shares.maintainability,
      means.duplication * w.shares.duplication], IsAmount x := by
    intro x hx
    rcases List.mem_cons.mp hx with rfl | hx
    · exact ⟨_, hm, roundMagnitude_nonneg _⟩
    · exact List.mem_singleton.mp hx ▸ ⟨_, hd, roundMagnitude_nonneg _⟩
  -- The weighted sum adds the last two products to the first.
  obtain ⟨v, hv, hsum⟩ := nearSum_sum hrest hc (roundMagnitude_nonneg _)
  rw [exactSum_cons, exactSum_cons, hm.amount_eq, hd.amount_eq, show exactSum [] = 0 from rfl,
    add_zero, ← add_assoc] at hsum
  have hlength : [means.maintainability * w.shares.maintainability,
      means.duplication * w.shares.duplication].length ≤ 3 := by simp
  obtain ⟨r, rfl, hr, hnear⟩ := hsum.exists_near
    (mul_roundoffFactor_pow_lt_limit (roundedTerms_bounds hmeans hw).2 hlength)
  exact ⟨r, hv, hr, hnear⟩

theorem exactShares_eq (w : Weighting) : w.exactShares =
    amount w.shares.complexity + amount w.shares.maintainability + amount w.shares.duplication := by
  unfold Weighting.exactShares exactSum
  simp only [toList, List.map_cons, List.map_nil, List.sum_cons, List.sum_nil, add_zero, add_assoc]

/-- Without rounding the weighted sum lies between two numbers times the sum of the shares if the
means lie between the two numbers. -/
theorem exactDot_bounds {least greatest : ℝ} (hw : w.fault? = none)
    (h : ∀ x ∈ means.toList, least ≤ amount x ∧ amount x ≤ greatest) :
    least * w.exactShares ≤ means.exactDot w.shares ∧
      means.exactDot w.shares ≤ greatest * w.exactShares := by
  obtain ⟨hc, hm, hd⟩ := of_pairs fun x hx share hshare =>
    have hnonneg := (Weighting.isAmount_share hw hshare).1.nonneg
    And.intro (mul_le_mul_of_nonneg_right (h x hx).1 hnonneg)
      (mul_le_mul_of_nonneg_right (h x hx).2 hnonneg)
  rw [exactShares_eq]
  unfold exactDot
  constructor <;> linarith

/-- How far the weighted sum of equal means may be from them: the tolerance of the shares and five
roundings. -/
noncomputable def dotTolerance : ℝ := 1.000001e-9

theorem dotTolerance_pos : 0 < dotTolerance := by
  unfold dotTolerance
  norm_num

/-- What products that underflow may lose. -/
noncomputable def dotUnderflow : ℝ := 2 ^ (-1073 : ℤ)

theorem dotUnderflow_pos : 0 < dotUnderflow := two_zpow_pos _

theorem dotUnderflow_eq : dotUnderflow = 4 * underflowError := by
  unfold dotUnderflow underflowError
  rw [show (4 : ℝ) = 2 ^ (2 : ℤ) by norm_num, ← zpow_add₀ (by norm_num)]
  norm_num

theorem dot_bounds {least greatest v : ℝ} (hmeans : ∀ x ∈ means.toList, IsScore x)
    (hw : w.fault? = none) (h : ∀ x ∈ means.toList, least ≤ amount x ∧ amount x ≤ greatest)
    (hleast : 0 ≤ least) (hgreatest : 0 ≤ greatest) (hv : Near 2 v (means.roundedTerms w.shares)) :
    least * (1 - dotTolerance) - dotUnderflow ≤ v ∧
      v ≤ greatest * (1 + dotTolerance) + dotUnderflow := by
  have hterms := abs_le.mp (abs_roundedTerms_sub_le hmeans hw)
  obtain ⟨hlow, hhigh⟩ := exactDot_bounds hw h
  have hshares := abs_le.mp (Weighting.abs_exactShares_sub_one_le hw)
  unfold Weighting.sharesTolerance at hshares
  have hlow' := mul_le_mul_of_nonneg_left hshares.1 hleast
  have hhigh' := mul_le_mul_of_nonneg_left hshares.2 hgreatest
  have hnear := hv.le
  have hnear' := hv.ge
  rw [roundoffFactor_eq] at hnear hnear'
  have hunderflow := underflowError_pos
  rw [unitRoundoff_eq] at hterms
  rw [dotUnderflow_eq]
  unfold dotTolerance
  norm_num at hterms hlow' hhigh' hnear hnear'
  constructor <;> linarith

end Dimensions

/-! ## Projects -/

/-- A file whose three sub-scores are on the scale. -/
structure FileScore.IsScored (f : FileScore) : Prop where
  complexity : IsScore f.complexity
  size : IsScore f.size
  duplication : IsScore f.duplication

theorem Totals.isScore_mean {count : UInt64} {sum : Float} (h : ∃ v, Denotes sum v) :
    IsScore (mean count sum) := by
  unfold mean
  by_cases hcount : count = 0
  · rw [if_pos (by simpa using hcount)]
    exact isScore_of_denotes denotes_hundred (by norm_num) le_rfl
  · rw [if_neg (by simpa using hcount)]
    obtain ⟨v, hv⟩ := h
    obtain ⟨d, hd, hpos⟩ := exists_denotes_toFloat_uint64 hcount
    exact isScore_clampScore (hv.div hd hpos.ne')

/-- A number on the scale, as a real number. -/
theorem denotes_clampScore_coe {x : Float} {v : ℝ} (h : Denotes x v) :
    Denotes (clampScore x) (onScale v : ℝ) := by
  have hlimited := denotes_clampScore h
  have hcoe := EReal.coe_strictMono.monotone
  rw [hundred_eq, ← EReal.coe_zero, ← hcoe.map_min, ← hcoe.map_max] at hlimited
  exact hlimited

namespace ProjectScore

variable {w : Weighting} {mode : DuplicationMode} {files : List FileScore}

theorem isScore_dimensionMeans (h : ∀ f ∈ files, f.IsScored) :
    ∀ x ∈ (dimensionMeans files).toList, IsScore x := by
  have hmean (score : FileScore → Float) (hscore : ∀ f ∈ files, 0.0 ≤ score f) :
      IsScore (reportedMean score files) := by
    obtain ⟨v, hv, -⟩ := exists_scoreSum hscore
    exact Totals.isScore_mean ⟨v, hv⟩
  intro x hx
  rw [Dimensions.toList, List.mem_cons, List.mem_cons, List.mem_singleton] at hx
  rcases hx with rfl | rfl | rfl
  · exact hmean FileScore.complexity fun f hf => (h f hf).complexity.1
  · exact hmean FileScore.size fun f hf => (h f hf).size.1
  · exact hmean FileScore.duplication fun f hf => (h f hf).duplication.1

/-- The overall score is between two of the three means. -/
def Between (p : ProjectScore) : Prop :=
  (∃ x ∈ p.means.toList, x ≤ p.overall) ∧ ∃ x ∈ p.means.toList, p.overall ≤ x

/-- All four scores are on the scale, and the overall score is between the least and the greatest
mean, up to the tolerance of the shares and what products and sums round. -/
structure NearlyBetween (p : ProjectScore) : Prop where
  means : ∀ x ∈ p.means.toList, IsScore x
  overall : IsScore p.overall
  low : ∃ x ∈ p.means.toList, (∀ y ∈ p.means.toList, x ≤ y) ∧
    amount x * (1 - Dimensions.dotTolerance) - Dimensions.dotUnderflow ≤ amount p.overall
  high : ∃ x ∈ p.means.toList, (∀ y ∈ p.means.toList, y ≤ x) ∧
    amount p.overall ≤ amount x * (1 + Dimensions.dotTolerance) + Dimensions.dotUnderflow

theorem NearlyBetween.of_dot {p : ProjectScore} (hw : w.fault? = none)
    (hmeans : ∀ x ∈ p.means.toList, IsScore x)
    (hoverall : p.overall = clampScore (p.means.dot w.shares)) : p.NearlyBetween := by
  have hle {x y : Float} (hx : x ∈ p.means.toList) (hy : y ∈ p.means.toList) :
      x ≤ y ↔ amount x ≤ amount y :=
    (hmeans x hx).isAmount.1.denotes.coe_le_iff (hmeans y hy).isAmount.1.denotes
  have hne : {x | x ∈ p.means.toList}.Nonempty := ⟨_, List.mem_cons_self ..⟩
  obtain ⟨x, hx, hleast⟩ := Set.exists_min_image _ amount (List.finite_toSet _) hne
  obtain ⟨y, hy, hgreatest⟩ := Set.exists_max_image _ amount (List.finite_toSet _) hne
  obtain ⟨hx', hx₁⟩ := (hmeans x hx).isAmount
  obtain ⟨v, hv, hv₀, hnear⟩ := Dimensions.exists_dot_near hmeans hw
  obtain ⟨hlow, hhigh⟩ := Dimensions.dot_bounds hmeans hw
    (fun z hz => ⟨hleast z hz, hgreatest z hz⟩) hx'.nonneg (hmeans y hy).isAmount.1.nonneg hnear
  have hamount : amount p.overall = onScale v := hoverall ▸ (denotes_clampScore_coe hv).amount_eq
  refine ⟨hmeans, hoverall ▸ isScore_clampScore hv,
    ⟨x, hx, fun z hz => (hle hx hz).mpr (hleast z hz), ?_⟩,
    ⟨y, hy, fun z hz => (hle hz hy).mpr (hgreatest z hz), ?_⟩⟩
  · -- Limiting to the scale only lowers what is above 100, where no mean is.
    have hbelow : amount x * (1 - Dimensions.dotTolerance) - Dimensions.dotUnderflow ≤ 100 := by
      linarith [mul_nonneg hx'.nonneg Dimensions.dotTolerance_pos.le, Dimensions.dotUnderflow_pos]
    rw [hamount, onScale_eq]
    exact (le_min hlow hbelow).trans (le_max_right 0 _)
  · rw [hamount, onScale_eq]
    exact (max_le hv₀ (min_le_left v 100)).trans hhigh

theorem nearlyBetween_ofFiles (hw : w.fault? = none) (h : ∀ f ∈ files, f.IsScored) :
    (ofFiles files w mode).NearlyBetween :=
  .of_dot hw (means_ofFiles files w mode ▸ isScore_dimensionMeans h) rfl

/-! ## Full scores -/

theorem eq_hundred_of_isMeanOf {x : Float} {score : FileScore → Float}
    (h : IsMeanOf x score files) (hfull : ∀ f ∈ files, score f = 100.0) : x = 100.0 := by
  obtain ⟨f, hf, -, hlow⟩ := h.least
  obtain ⟨g, hg, -, hhigh⟩ := h.greatest
  rw [hfull f hf] at hlow
  rw [hfull g hg] at hhigh
  obtain ⟨u, hu, hu₁⟩ := exists_of_le_hundred hhigh
  have hhundred : Denotes 100.0 (((100 : ℕ) : ℝ) : EReal) := hundred_eq ▸ denotes_hundred
  rw [denotes_hundred.le_iff hu] at hlow
  rw [le_antisymm hu₁ hlow, hundred_eq] at hu
  exact eq_of_denotes hu hhundred (by norm_num)

/-- No files, or files with full scores only. -/
def AreFull (files : List FileScore) : Prop := files = [] ∨ ∀ f ∈ files, f.IsFull

theorem means_of_areFull (w : Weighting) (mode : DuplicationMode) (h : AreFull files)
    (hlength : 100 * files.length ≤ 2 ^ 53) :
    (ofFiles files w mode).means = ⟨100.0, 100.0, 100.0⟩ := by
  rcases eq_or_ne files [] with rfl | hne
  · rfl
  have hfull := h.resolve_left hne
  have hmeans : (ofFiles files w mode).HasMeansOf files :=
    hasMeansOf_ofFiles (fun f hf => (hfull f hf).isWhole) hne hlength
  have hcomplexity := eq_hundred_of_isMeanOf hmeans.complexity fun f hf => (hfull f hf).complexity
  have hsize := eq_hundred_of_isMeanOf hmeans.maintainability fun f hf => (hfull f hf).size
  have hduplication :=
    eq_hundred_of_isMeanOf hmeans.duplication fun f hf => (hfull f hf).duplication
  calc (ofFiles files w mode).means
      = ⟨(ofFiles files w mode).means.complexity, (ofFiles files w mode).means.maintainability,
          (ofFiles files w mode).means.duplication⟩ := rfl
    _ = ⟨100.0, 100.0, 100.0⟩ := by rw [hcomplexity, hsize, hduplication]

/-- Under every accepted weighting the four scores are on the scale and the overall score is nearly
between the least and the greatest mean. Without files, or with full scores only, all means are
full; so is the overall score under the built-in shares. -/
theorem ofFiles_nearlyBetween (hw : w.validate = .ok ()) (h : ∀ f ∈ files, f.IsScored)
    (mode : DuplicationMode) :
    (ofFiles files w mode).NearlyBetween ∧
    (AreFull files → 100 * files.length ≤ 2 ^ 53 →
      (ofFiles files w mode).means = ⟨100.0, 100.0, 100.0⟩ ∧
      (w.shares = Weighting.v1.shares ∨ w.shares = Weighting.v2.shares →
        (ofFiles files w mode).overall = 100.0)) := by
  refine ⟨nearlyBetween_ofFiles ((Weighting.validate_eq_ok_iff w).mp hw) h, ?_⟩
  intro hfull hlength
  have hmeans := means_of_areFull w mode hfull hlength
  refine ⟨hmeans, ?_⟩
  intro hshares
  have hoverall : (ofFiles files w mode).overall =
      clampScore ((ofFiles files w mode).means.dot w.shares) := rfl
  rw [hoverall, hmeans]
  rcases hshares with hshares | hshares
  · rw [hshares]
    decide
  · rw [hshares]
    decide

/-- Shares that the check accepts, since their sum is one within its tolerance. -/
def looseShares : Weighting := ⟨⟨0.5, 0.3, 0.1999999995⟩, .custom⟩

theorem ofFiles_nearlyBetween_looseShares :
    looseShares.validate = .ok () ∧ (Tally.sampleScore "a").IsScored ∧
      (ofFiles [Tally.sampleScore "a"] looseShares .strict).NearlyBetween ∧
      Weighting.v2.validate = .ok () ∧ (fullScore "a").IsFull ∧
      (ofFiles [fullScore "a"] .v2 .strict).overall = 100.0 := by
  have hscored {f : FileScore} (hf : f.IsWhole) : ∀ g ∈ [f], g.IsScored := by
    intro g hg
    rw [List.mem_singleton.mp hg]
    exact ⟨⟨hf.complexity.nonneg, hf.complexity.le_hundred⟩,
      ⟨hf.size.nonneg, hf.size.le_hundred⟩, ⟨hf.duplication.nonneg, hf.duplication.le_hundred⟩⟩
  have hloose : looseShares.validate = .ok () := rfl
  have hv2 : Weighting.v2.validate = .ok () := rfl
  have hsample := hscored (Tally.isWhole_sampleScore "a")
  have hfull : ∀ f ∈ [fullScore "a"], f.IsFull :=
    fun f hf => List.mem_singleton.mp hf ▸ isFull_fullScore "a"
  have hbounds := (ofFiles_nearlyBetween hloose hsample .strict).1
  have hfullOverall := (ofFiles_nearlyBetween hv2 (hscored (isFull_fullScore "a").isWhole)
    .strict).2 (.inr hfull) (by decide)
  exact ⟨hloose, hsample _ (List.mem_singleton_self _), hbounds, hv2, isFull_fullScore "a",
    hfullOverall.2 (.inr rfl)⟩

/-- Files whose scores add up to 51 in each dimension. -/
def sevenFiles : List FileScore :=
  ⟨"a", 51.0, 51.0, 51.0, 51.0, .ofFloat 1.0, 0.0, 0.0, 0⟩ ::
    List.replicate 6 ⟨"b", 0.0, 0.0, 0.0, 0.0, .ofFloat 1.0, 0.0, 0.0, 0⟩

theorem Between.exists_le {p : ProjectScore} (h : p.Between) :
    ¬ ∀ x ∈ p.means.toList, ¬ x ≤ p.overall := by
  obtain ⟨⟨x, hx, hle⟩, -⟩ := h
  exact fun hbelow => hbelow x hx hle

/-- A project without files is below all its means under the loose shares, and seven files are
below all theirs, which are the same, under the built-in ones. -/
theorem exists_not_between :
    looseShares.validate = .ok () ∧ ¬ (ofFiles [] looseShares .strict).Between ∧
      (ofFiles [] looseShares .strict).overall ≠ 100.0 ∧
      (∀ f ∈ sevenFiles, f.IsScored) ∧ ¬ (ofFiles sevenFiles .v2 .strict).Between := by
  refine ⟨rfl, fun h => h.exists_le (by decide), ?_, ?_,
    fun h => h.exists_le (by decide +kernel)⟩
  · intro heq
    have hbelow : ¬ 100.0 ≤ (ofFiles [] looseShares .strict).overall := by decide +kernel
    exact hbelow (heq ▸ le_self denotes_hundred.isNaN_eq_false)
  · have hzero : IsScore 0.0 := ⟨by decide, by decide⟩
    have hscore : IsScore 51.0 := ⟨by decide, by decide⟩
    intro f hf
    rcases List.mem_cons.mp hf with rfl | hf
    · exact ⟨hscore, hscore, hscore⟩
    · rw [List.eq_of_mem_replicate hf]
      exact ⟨hzero, hzero, hzero⟩

end ProjectScore

end CodeQuality
