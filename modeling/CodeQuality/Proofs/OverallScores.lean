import CodeQuality.ProjectScore
import CodeQuality.Proofs.Double.Absorption
import CodeQuality.Proofs.Scores

/-!
The overall score of a project.

Means of whole scores and their weighted sum stay on the scale, whatever the number of files. A
single sub-score that is no number makes the mean of its dimension no number, and the overall
score with it, even where the dimension has no share.
-/

namespace CodeQuality

open Double

namespace Totals

theorem foldl_push (files : List FileScore) : ∀ t : Totals,
    files.foldl push t = ⟨t.count + files.length.toUInt64,
      ⟨(files.map FileScore.complexity).foldl (· + ·) t.sums.complexity,
        (files.map FileScore.size).foldl (· + ·) t.sums.maintainability,
        (files.map FileScore.duplication).foldl (· + ·) t.sums.duplication⟩⟩ := by
  induction files with
  | nil =>
    intro t
    show t = ⟨t.count + 0, t.sums⟩
    rw [UInt64.add_zero]
  | cons f rest ih =>
    intro t
    have hcount : t.count + (f :: rest).length.toUInt64 =
        t.count + 1 + rest.length.toUInt64 := by
      have hlength : (f :: rest).length.toUInt64 = rest.length.toUInt64 + 1 :=
        UInt64.ofNat_add _ _
      rw [hlength, UInt64.add_assoc, UInt64.add_comm 1]
    rw [List.foldl_cons, ih, hcount]
    rfl

theorem ofFiles_eq (files : List FileScore) :
    ofFiles files = ⟨files.length.toUInt64,
      ⟨(files.map FileScore.complexity).foldl (· + ·) 0.0,
        (files.map FileScore.size).foldl (· + ·) 0.0,
        (files.map FileScore.duplication).foldl (· + ·) 0.0⟩⟩ := by
  unfold ofFiles
  rw [foldl_push]
  show (⟨0 + _, _⟩ : Totals) = _
  rw [UInt64.zero_add]
  rfl

/-! ## Means -/

theorem isNaN_mean {count : UInt64} (hcount : count ≠ 0) {sum : Float} (h : sum.isNaN = true) :
    (mean count sum).isNaN = true := by
  unfold mean
  rw [if_neg (by simpa using hcount)]
  exact isNaN_clampScore (isNaN_div_left h _)

theorem isNaN_mean_eq_false {count : UInt64} {sum : Float} (h : count = 0 ∨ ∃ v, Denotes sum v) :
    (mean count sum).isNaN = false := by
  unfold mean
  by_cases hcount : count = 0
  · -- Without files the score is full.
    rw [if_pos (by simpa using hcount)]
    exact denotes_hundred.isNaN_eq_false
  · rw [if_neg (by simpa using hcount)]
    obtain ⟨v, hv⟩ := h.resolve_left hcount
    obtain ⟨d, hd, hpos⟩ := exists_denotes_toFloat_uint64 hcount
    exact (denotes_clampScore (hv.div hd hpos.ne')).isNaN_eq_false

/-- A mean that is a number is none below zero and not infinite. -/
theorem exists_mean {count : UInt64} {sum : Float} (h : (mean count sum).isNaN = false) :
    ∃ u : ℝ, Denotes (mean count sum) u ∧ 0 ≤ u := by
  unfold mean at h ⊢
  split_ifs at h ⊢
  · exact ⟨_, hundred_eq ▸ denotes_hundred, Nat.cast_nonneg 100⟩
  · rcases isNaN_or_denotes (sum / count.toFloat) with hnan | ⟨v, hv⟩
    · rw [isNaN_clampScore hnan] at h
      exact Bool.noConfusion h
    · have hmean := denotes_clampScore hv
      have hhigh : max 0 (min v 100) ≤ (((100 : ℕ) : ℝ) : EReal) := by
        rw [← hundred_eq]
        exact max_le (by norm_num) (min_le_right _ _)
      obtain ⟨u, hu, hu₀, -⟩ := exists_real (le_max_left _ _) hhigh
      rw [hu] at hmean
      exact ⟨u, hmean, hu₀⟩

theorem mean_mono {count : UInt64} {sum sum' : Float} (h : sum ≤ sum') :
    mean count sum ≤ mean count sum' := by
  unfold mean
  by_cases hcount : count = 0
  · simp only [hcount, beq_self_eq_true, ↓reduceIte]
    exact le_self denotes_hundred.isNaN_eq_false
  · simp only [beq_iff_eq, hcount, ↓reduceIte]
    obtain ⟨d, hd, hpos⟩ := exists_denotes_toFloat_uint64 hcount
    exact clampScore_mono (div_mono hd hpos h)

end Totals

/-! ## The weighted sum -/

/-- Each share is a number from zero to one. -/
def Dimensions.InUnit (d : Dimensions) : Prop := ∀ share ∈ d.toList, 0.0 ≤ share ∧ share ≤ 1.0

theorem Dimensions.any_outOfRange_iff {d : Dimensions} :
    d.toList.any (fun share => !share.isFinite || !inUnitInterval share) = false ↔ d.InUnit := by
  have hone : (1.0 : Float).isFinite = true := by decide
  simp only [List.any_eq_false, Bool.not_eq_true, Bool.or_eq_false_iff, Bool.not_eq_false',
    inUnitInterval_iff, InUnit]
  constructor
  · exact fun h share hshare => (h share hshare).2
  · intro h share hshare
    exact ⟨isFinite_of_le (h share hshare).1 (h share hshare).2 hone, h share hshare⟩

theorem Weighting.inUnit_shares {w : Weighting} (h : w.fault? = none) : w.shares.InUnit := by
  unfold Weighting.fault? at h
  split_ifs at h with hrange hsum
  exact Dimensions.any_outOfRange_iff.mp (Bool.eq_false_iff.mpr hrange)

theorem Dimensions.InUnit.exists_share {d : Dimensions} (h : d.InUnit) {share : Float}
    (hshare : share ∈ d.toList) : ∃ a : ℝ, Denotes share a ∧ 0 ≤ a ∧ a ≤ 1 := by
  obtain ⟨hlow, hhigh⟩ := h share hshare
  obtain ⟨u, hu, hu₀⟩ := exists_of_nonneg hlow
  rw [hu.le_iff denotes_one] at hhigh
  obtain ⟨a, rfl, ha₀, ha₁⟩ := exists_real hu₀ (show u ≤ ((1 : ℝ) : EReal) from hhigh)
  exact ⟨a, hu, ha₀, ha₁⟩

theorem Weighting.exists_share {w : Weighting} (h : w.fault? = none) {share : Float}
    (hshare : share ∈ w.shares.toList) : ∃ a : ℝ, Denotes share a ∧ 0 ≤ a := by
  obtain ⟨a, ha, ha₀, -⟩ := (inUnit_shares h).exists_share hshare
  exact ⟨a, ha, ha₀⟩

theorem exists_product {x y : Float} (hx : ∃ a : ℝ, Denotes x a ∧ 0 ≤ a)
    (hy : ∃ b : ℝ, Denotes y b ∧ 0 ≤ b) : ∃ v, Denotes (x * y) v ∧ 0 ≤ v := by
  rcases hx with ⟨a, ha, ha₀⟩
  rcases hy with ⟨b, hb, hb₀⟩
  have hreal : ¬ ((a : EReal) = ⊤ ∧ b = 0) := fun h => EReal.coe_ne_top a h.1
  have ha₀' : (0 : EReal) ≤ a := EReal.coe_nonneg.mpr ha₀
  exact ⟨_, ha.mul hb (not_annihilates_of_nonneg ha₀' hreal),
    nearest_nonneg (EReal.mul_nonneg ha₀' (EReal.coe_nonneg.mpr hb₀))⟩

/-- What holds of all pairs holds of the two numbers of each dimension. -/
theorem Dimensions.of_pairs {P : Float → Float → Prop} {a b : Dimensions}
    (h : ∀ x ∈ a.toList, ∀ y ∈ b.toList, P x y) :
    P a.complexity b.complexity ∧ P a.maintainability b.maintainability ∧
      P a.duplication b.duplication :=
  ⟨h _ (by simp [toList]) _ (by simp [toList]), h _ (by simp [toList]) _ (by simp [toList]),
    h _ (by simp [toList]) _ (by simp [toList])⟩

theorem Dimensions.exists_dot {means : Dimensions} {w : Weighting} (hw : w.fault? = none)
    (hmeans : ∀ x ∈ means.toList, ∃ a : ℝ, Denotes x a ∧ 0 ≤ a) :
    ∃ v, Denotes (means.dot w.shares) v := by
  obtain ⟨⟨u₁, h₁, hu₁⟩, ⟨u₂, h₂, hu₂⟩, ⟨u₃, h₃, hu₃⟩⟩ := Dimensions.of_pairs
    fun x hx share hshare => exists_product (hmeans x hx) (Weighting.exists_share hw hshare)
  have hsum := h₁.add h₂ (not_cancels_of_nonneg hu₁ hu₂)
  have hsum₀ : 0 ≤ nearest (u₁ + u₂) := nearest_nonneg (add_nonneg hu₁ hu₂)
  exact ⟨_, hsum.add h₃ (not_cancels_of_nonneg hsum₀ hu₃)⟩

/-- In none of the three dimensions the first has more than the second. -/
structure Dimensions.AtMost (a b : Dimensions) : Prop where
  complexity : a.complexity ≤ b.complexity
  maintainability : a.maintainability ≤ b.maintainability
  duplication : a.duplication ≤ b.duplication

theorem Dimensions.AtMost.isNaN_eq_false {a b : Dimensions} (h : a.AtMost b) {x : Float}
    (hx : x ∈ a.toList) : x.isNaN = false := by
  rw [Dimensions.toList, List.mem_cons, List.mem_cons, List.mem_singleton] at hx
  rcases hx with rfl | rfl | rfl
  · exact (isNaN_eq_false_of_le h.complexity).1
  · exact (isNaN_eq_false_of_le h.maintainability).1
  · exact (isNaN_eq_false_of_le h.duplication).1

/-- The weighted sum rises with each of the three numbers. -/
theorem Dimensions.dot_mono {a b : Dimensions} {w : Weighting} (hw : w.fault? = none)
    (ha : ∀ x ∈ a.toList, ∃ u : ℝ, Denotes x u ∧ 0 ≤ u)
    (hb : ∀ x ∈ b.toList, ∃ u : ℝ, Denotes x u ∧ 0 ≤ u) (h : a.AtMost b) :
    a.dot w.shares ≤ b.dot w.shares := by
  have hproduct {x y share : Float} (hx : x ∈ a.toList) (hy : y ∈ b.toList)
      (hshare : share ∈ w.shares.toList) (hle : x ≤ y) :
      0.0 ≤ x * share ∧ x * share ≤ y * share := by
    obtain ⟨v, hv, hv₀⟩ := exists_product (ha x hx) (Weighting.exists_share hw hshare)
    obtain ⟨u, hu, -⟩ := ha x hx
    obtain ⟨u', hu', -⟩ := hb y hy
    obtain ⟨s, hs, hs₀⟩ := Weighting.exists_share hw hshare
    exact ⟨nonneg_of_denotes hv hv₀, mul_mono hu hu' hs hs₀ ((hu.coe_le_iff hu').mp hle)⟩
  obtain ⟨hc₀, hc⟩ := hproduct (by simp [toList]) (by simp [toList])
    (show w.shares.complexity ∈ _ by simp [toList]) h.complexity
  obtain ⟨hm₀, hm⟩ := hproduct (by simp [toList]) (by simp [toList])
    (show w.shares.maintainability ∈ _ by simp [toList]) h.maintainability
  obtain ⟨hd₀, hd⟩ := hproduct (by simp [toList]) (by simp [toList])
    (show w.shares.duplication ∈ _ by simp [toList]) h.duplication
  exact add_mono (Double.le_trans hc₀ (le_add hc₀ hm₀)) hd₀ (add_mono hc₀ hm₀ hc hm) hd

theorem Dimensions.isNaN_dot {means shares : Dimensions}
    (h : ∃ x ∈ means.toList, x.isNaN = true) : (means.dot shares).isNaN = true := by
  rcases h with ⟨x, hx, hnan⟩
  unfold Dimensions.dot
  rw [Dimensions.toList, List.mem_cons, List.mem_cons, List.mem_singleton] at hx
  rcases hx with rfl | rfl | rfl
  · exact isNaN_add_left (isNaN_add_left (isNaN_mul_left hnan _) _) _
  · exact isNaN_add_left (isNaN_add_right _ (isNaN_mul_left hnan _)) _
  · exact isNaN_add_right _ (isNaN_mul_left hnan _)

/-! ## Projects -/

def FileScore.isLost (f : FileScore) : Bool :=
  f.complexity.isNaN || f.size.isNaN || f.duplication.isNaN

theorem FileScore.isLost_iff (f : FileScore) :
    f.isLost = true ↔ f.complexity.isNaN = true ∨ f.size.isNaN = true ∨
      f.duplication.isNaN = true := by
  unfold FileScore.isLost
  rw [Bool.or_eq_true, Bool.or_eq_true, or_assoc]

theorem exists_scoreSum {score : FileScore → Float} {files : List FileScore}
    (h : ∀ f ∈ files, 0.0 ≤ score f) :
    ∃ v, Denotes ((files.map score).foldl (· + ·) 0.0) v ∧ 0 ≤ v := by
  refine exists_sum _ ?_ _ ⟨0, denotes_zero, le_rfl⟩
  intro x hx
  obtain ⟨f, hf, rfl⟩ := List.mem_map.mp hx
  exact exists_of_nonneg (h f hf)

theorem isNaN_scoreSum {score : FileScore → Float} {files : List FileScore} {f : FileScore}
    (hf : f ∈ files) (h : (score f).isNaN = true) :
    ((files.map score).foldl (· + ·) 0.0).isNaN = true :=
  isNaN_sum _ _ (.inr ⟨score f, List.mem_map_of_mem hf, h⟩)

namespace ProjectScore

/-- The means of the three dimensions of some files. -/
def dimensionMeans (files : List FileScore) : Dimensions :=
  Dimensions.map (Totals.mean files.length.toUInt64)
    ⟨(files.map FileScore.complexity).foldl (· + ·) 0.0,
      (files.map FileScore.size).foldl (· + ·) 0.0,
      (files.map FileScore.duplication).foldl (· + ·) 0.0⟩

theorem means_ofFiles (files : List FileScore) (w : Weighting) (mode : DuplicationMode) :
    (ofFiles files w mode).means = dimensionMeans files := by
  unfold ofFiles
  rw [Totals.ofFiles_eq]
  rfl

theorem overall_ofFiles (files : List FileScore) (w : Weighting) (mode : DuplicationMode) :
    (ofFiles files w mode).overall = clampScore ((dimensionMeans files).dot w.shares) := by
  unfold ofFiles
  rw [Totals.ofFiles_eq]
  rfl

theorem exists_dimensionMeans {files : List FileScore}
    (h : files.length.toUInt64 = 0 ∨ ∀ f ∈ files, f.IsWhole) :
    ∀ x ∈ (dimensionMeans files).toList, ∃ a : ℝ, Denotes x a ∧ 0 ≤ a := by
  have hmean (score : FileScore → Float) (hscore : ∀ f : FileScore, f.IsWhole →
      IsWholeScore (score f)) : ∃ a : ℝ, Denotes (Totals.mean files.length.toUInt64
        ((files.map score).foldl (· + ·) 0.0)) a ∧ 0 ≤ a := by
    apply Totals.exists_mean
    apply Totals.isNaN_mean_eq_false
    apply h.imp_right
    intro hwhole
    obtain ⟨v, hv, -⟩ := exists_scoreSum fun f hf => (hscore f (hwhole f hf)).nonneg
    exact ⟨v, hv⟩
  intro x hx
  rw [Dimensions.toList, List.mem_cons, List.mem_cons, List.mem_singleton] at hx
  rcases hx with rfl | rfl | rfl
  · exact hmean FileScore.complexity fun _ hf => hf.complexity
  · exact hmean FileScore.size fun _ hf => hf.size
  · exact hmean FileScore.duplication fun _ hf => hf.duplication

theorem exists_isNaN_dimensionMeans {files : List FileScore} (hcount : files.length.toUInt64 ≠ 0)
    (h : files.any FileScore.isLost = true) :
    ∃ x ∈ (dimensionMeans files).toList, x.isNaN = true := by
  obtain ⟨f, hf, hlost⟩ := List.any_eq_true.mp h
  rcases f.isLost_iff.mp hlost with hnan | hnan | hnan
  · exact ⟨_, List.mem_cons_self .., Totals.isNaN_mean hcount (isNaN_scoreSum hf hnan)⟩
  · exact ⟨_, List.mem_cons_of_mem _ (List.mem_cons_self ..),
      Totals.isNaN_mean hcount (isNaN_scoreSum hf hnan)⟩
  · exact ⟨_, List.mem_cons_of_mem _ (List.mem_cons_of_mem _ (List.mem_cons_self ..)),
      Totals.isNaN_mean hcount (isNaN_scoreSum hf hnan)⟩

/-- The overall score is on the scale, unless a counted file has a sub-score that is no number. -/
theorem overall_spec {w : Weighting} (hw : w.fault? = none)
    {files : List FileScore} (hfiles : ∀ f ∈ files, f.isLost = false → f.IsWhole)
    (mode : DuplicationMode) :
    if files.length.toUInt64 ≠ 0 ∧ files.any FileScore.isLost = true then
      (ofFiles files w mode).overall.isNaN = true
    else IsScore (ofFiles files w mode).overall := by
  rw [overall_ofFiles]
  split_ifs with hlost
  · apply isNaN_clampScore
    -- A mean that is no number spoils the sum whatever its share is, zero included.
    exact Dimensions.isNaN_dot (exists_isNaN_dimensionMeans hlost.1 hlost.2)
  · have hwhole : files.length.toUInt64 = 0 ∨ ∀ f ∈ files, f.IsWhole := by
      by_cases hcount : files.length.toUInt64 = 0
      · exact .inl hcount
      · right
        intro f hf
        apply hfiles f hf
        rw [← Bool.not_eq_true]
        exact fun hnan => hlost ⟨hcount, List.any_eq_true.mpr ⟨f, hf, hnan⟩⟩
    obtain ⟨v, hv⟩ := Dimensions.exists_dot hw (exists_dimensionMeans hwhole)
    exact isScore_clampScore hv

end ProjectScore

end CodeQuality
