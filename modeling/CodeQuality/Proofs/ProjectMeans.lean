import CodeQuality.Proofs.FileOrder

/-!
The means of a project of whole scores.

Sums of whole scores are exact, so a mean is rounded once, in the division by the number of files.
It lies between the least and the greatest of the scores. Better scores never lower a mean, and
neither does one more file with full scores; through the weighted sum this reaches the overall
score under every accepted weighting.
-/

namespace CodeQuality

open Double

/-! ## One dimension -/

/-- The mean of one sub-score as a project reports it. -/
def reportedMean (score : FileScore → Float) (files : List FileScore) : Float :=
  Totals.mean files.length.toUInt64 ((files.map score).foldl (· + ·) 0.0)

/-- The mean of one sub-score without rounding. -/
noncomputable def exactMean (score : FileScore → Float) (files : List FileScore) : ℝ :=
  pointSum score files / files.length

/-- A number is the mean of one sub-score: rounded once, and between two of the scores that bound
all others. -/
structure IsMeanOf (x : Float) (score : FileScore → Float) (files : List FileScore) : Prop where
  rounded : Denotes x (nearest (exactMean score files))
  least : ∃ f ∈ files, (∀ g ∈ files, score f ≤ score g) ∧ score f ≤ x
  greatest : ∃ f ∈ files, (∀ g ∈ files, score g ≤ score f) ∧ x ≤ score f

section Dimension

variable {score : FileScore → Float} {files : List FileScore}

theorem exactMean_nonneg (score : FileScore → Float) (files : List FileScore) :
    0 ≤ exactMean score files :=
  div_nonneg (Nat.cast_nonneg _) (Nat.cast_nonneg _)

theorem length_cast_pos (hne : files ≠ []) : (0 : ℝ) < files.length :=
  Nat.cast_pos.mpr (List.length_pos_iff.mpr hne)

theorem exactMean_le_hundred (h : ∀ f ∈ files, IsWholeScore (score f)) (hne : files ≠ []) :
    exactMean score files ≤ ((100 : ℕ) : ℝ) := by
  unfold exactMean
  rw [div_le_iff₀ (length_cast_pos hne)]
  exact_mod_cast pointSum_le h

theorem denotes_reportedMean (h : ∀ f ∈ files, IsWholeScore (score f)) (hne : files ≠ [])
    (hlength : 100 * files.length ≤ 2 ^ 53) :
    Denotes (reportedMean score files) (nearest (exactMean score files)) := by
  have hpos : 0 < files.length := List.length_pos_iff.mpr hne
  have hcount : files.length.toUInt64 ≠ 0 := by
    intro hzero
    have hmod : files.length % 2 ^ 64 = 0 := congrArg UInt64.toNat hzero
    omega
  have hsum := denotes_wholeFloat (n := pointSum score files) ((pointSum_le h).trans hlength)
  have hlengthFloat : Denotes files.length.toUInt64.toFloat ((files.length : ℝ) : EReal) :=
    denotes_wholeFloat (by omega)
  have hquotient := hsum.div hlengthFloat (length_cast_pos hne).ne'
  rw [← EReal.coe_div] at hquotient
  -- The quotient is on the scale, so it is not limited.
  have hlow : 0 ≤ nearest (exactMean score files) :=
    nearest_nonneg (EReal.coe_nonneg.mpr (exactMean_nonneg score files))
  have hhigh : nearest (exactMean score files) ≤ 100 := by
    rw [← denotes_hundred.nearest_eq, hundred_eq]
    exact nearest_mono (EReal.coe_le_coe_iff.mpr (exactMean_le_hundred h hne))
  have hlimited := denotes_clampScore hquotient
  unfold reportedMean Totals.mean
  rw [if_neg (by simpa using hcount), scoreSum_eq_wholeFloat h hlength]
  rwa [show ((pointSum score files : ℝ) / (files.length : ℝ)) = exactMean score files from rfl,
    min_eq_left hhigh, max_eq_right hlow] at hlimited

theorem score_le_score_iff {f g : FileScore} (hf : IsWholeScore (score f))
    (hg : IsWholeScore (score g)) : score f ≤ score g ↔ points (score f) ≤ points (score g) := by
  rw [hf.denotes_points.1.coe_le_iff hg.denotes_points.1, Nat.cast_le]

theorem denotes_nearest_points {x : Float} (h : IsWholeScore x) :
    Denotes x (nearest (points x : ℝ)) := by
  obtain ⟨hx, hle⟩ := h.denotes_points
  rwa [nearest_natCast (by omega)]

theorem isMeanOf_reportedMean (h : ∀ f ∈ files, IsWholeScore (score f)) (hne : files ≠ [])
    (hlength : 100 * files.length ≤ 2 ^ 53) : IsMeanOf (reportedMean score files) score files := by
  have hmean := denotes_reportedMean h hne hlength
  have hpos := length_cast_pos hne
  have hmem : {f | f ∈ files}.Nonempty := List.exists_mem_of_ne_nil files hne
  refine ⟨hmean, ?_, ?_⟩
  · obtain ⟨f, hf, hleast⟩ := Set.exists_min_image {f | f ∈ files} (fun f => points (score f))
      (List.finite_toSet files) hmem
    have hsum : files.length * points (score f) ≤ pointSum score files := by
      have hle := List.card_nsmul_le_sum (files.map fun g => points (score g)) (points (score f))
        (List.forall_mem_map.mpr hleast)
      rwa [List.length_map, smul_eq_mul] at hle
    refine ⟨f, hf, fun g hg => (score_le_score_iff (h f hf) (h g hg)).mpr (hleast g hg), ?_⟩
    rw [(denotes_nearest_points (h f hf)).le_iff hmean]
    apply nearest_mono
    rw [EReal.coe_le_coe_iff, exactMean, le_div_iff₀ hpos, mul_comm]
    exact_mod_cast hsum
  · obtain ⟨f, hf, hgreatest⟩ := Set.exists_max_image {f | f ∈ files} (fun f => points (score f))
      (List.finite_toSet files) hmem
    have hsum : pointSum score files ≤ files.length * points (score f) := by
      have hle := List.sum_le_card_nsmul (files.map fun g => points (score g)) (points (score f))
        (List.forall_mem_map.mpr hgreatest)
      rwa [List.length_map, smul_eq_mul] at hle
    refine ⟨f, hf, fun g hg => (score_le_score_iff (h g hg) (h f hf)).mpr (hgreatest g hg), ?_⟩
    rw [hmean.le_iff (denotes_nearest_points (h f hf))]
    apply nearest_mono
    rw [EReal.coe_le_coe_iff, exactMean, div_le_iff₀ hpos, mul_comm]
    exact_mod_cast hsum

/-- Better scores at every position never lower a mean. -/
theorem reportedMean_mono {better : List FileScore} (h : ∀ f ∈ files, IsWholeScore (score f))
    (hbetter : files.Forall₂ (fun f g => score f ≤ score g) better) :
    reportedMean score files ≤ reportedMean score better := by
  have hzero : (0.0 : Float) ≤ 0.0 := le_self denotes_zero.isNaN_eq_false
  unfold reportedMean
  rw [hbetter.length_eq]
  apply Totals.mean_mono
  apply sum_mono _ _ hzero hzero
  · rwa [List.forall₂_map_left_iff, List.forall₂_map_right_iff]
  · intro x hx
    obtain ⟨f, hf, rfl⟩ := List.mem_map.mp hx
    exact (h f hf).nonneg

/-! ## One more file -/

variable {before after : List FileScore} {f : FileScore}

theorem pointSum_insert (hf : score f = 100.0) :
    pointSum score (before ++ f :: after) = pointSum score (before ++ after) + 100 := by
  have hpoints : points (score f) = 100 := by
    rw [hf]
    exact points_of_denotes (hundred_eq ▸ denotes_hundred)
  have hcons : pointSum score (f :: (before ++ after)) =
      points (score f) + pointSum score (before ++ after) := rfl
  rw [pointSum_perm List.perm_middle, hcons, hpoints, Nat.add_comm]

theorem isWholeScore_hundred : IsWholeScore 100.0 := ⟨100, le_rfl, by decide⟩

theorem forall_isWholeScore_insert (h : ∀ g ∈ before ++ after, IsWholeScore (score g))
    (hf : score f = 100.0) : ∀ g ∈ before ++ f :: after, IsWholeScore (score g) := by
  intro g hg
  rcases List.mem_cons.mp (List.perm_middle.mem_iff.mp hg) with rfl | hg
  · exact hf ▸ isWholeScore_hundred
  · exact h g hg

theorem exactMean_le_insert (h : ∀ g ∈ before ++ after, IsWholeScore (score g))
    (hne : before ++ after ≠ []) (hf : score f = 100.0) :
    exactMean score (before ++ after) ≤ exactMean score (before ++ f :: after) := by
  have hlength : (before ++ f :: after).length = (before ++ after).length + 1 :=
    List.perm_middle.length_eq
  have hsum : pointSum score (before ++ after) * ((before ++ after).length + 1) ≤
      (pointSum score (before ++ after) + 100) * (before ++ after).length := by
    linarith [pointSum_le h]
  have hpos := length_cast_pos hne
  unfold exactMean
  rw [pointSum_insert hf, hlength, Nat.cast_add, Nat.cast_add, Nat.cast_one,
    div_le_div_iff₀ hpos (by linarith)]
  exact_mod_cast hsum

/-- One more file with the full score never lowers a mean, wherever it is listed. -/
theorem reportedMean_le_insert (h : ∀ g ∈ before ++ after, IsWholeScore (score g))
    (hf : score f = 100.0) (hlength : 100 * ((before ++ after).length + 1) ≤ 2 ^ 53) :
    reportedMean score (before ++ after) ≤ reportedMean score (before ++ f :: after) := by
  have hinserted : (before ++ f :: after).length = (before ++ after).length + 1 :=
    List.perm_middle.length_eq
  have hnonempty : before ++ f :: after ≠ [] := by simp
  have hmean' := denotes_reportedMean (forall_isWholeScore_insert h hf) hnonempty
    (hinserted ▸ hlength)
  by_cases hne : before ++ after = []
  · -- Without files the mean is full, and so is that of the one file.
    obtain ⟨rfl, rfl⟩ := List.append_eq_nil_iff.mp hne
    have hexact : exactMean score [f] = ((100 : ℕ) : ℝ) := by
      have hsum : pointSum score ([] ++ f :: []) = 0 + 100 := pointSum_insert hf
      unfold exactMean
      rw [show pointSum score [f] = 100 from hsum]
      simp
    have hfull : reportedMean score [] = 100.0 := rfl
    rw [List.nil_append, hexact, ← hundred_eq, denotes_hundred.nearest_eq] at hmean'
    rw [List.nil_append, List.nil_append, hfull]
    exact (denotes_hundred.le_iff hmean').mpr le_rfl
  · have hmean := denotes_reportedMean h hne (by omega)
    rw [hmean.le_iff hmean']
    exact nearest_mono (EReal.coe_le_coe_iff.mpr (exactMean_le_insert h hne hf))

end Dimension

/-! ## Projects -/

/-- No sub-score of the first file is above that of the second. -/
structure FileScore.AtMost (f g : FileScore) : Prop where
  complexity : f.complexity ≤ g.complexity
  size : f.size ≤ g.size
  duplication : f.duplication ≤ g.duplication

structure FileScore.IsFull (f : FileScore) : Prop where
  complexity : f.complexity = 100.0
  size : f.size = 100.0
  duplication : f.duplication = 100.0

theorem FileScore.IsFull.isWhole {f : FileScore} (h : f.IsFull) : f.IsWhole :=
  ⟨h.complexity ▸ isWholeScore_hundred, h.size ▸ isWholeScore_hundred,
    h.duplication ▸ isWholeScore_hundred⟩

namespace ProjectScore

/-- Neither a mean nor the overall score of the first project is above that of the second. -/
structure AtMost (a b : ProjectScore) : Prop where
  means : a.means.AtMost b.means
  overall : a.overall ≤ b.overall

/-- The three means of a project are those of its files. -/
structure HasMeansOf (p : ProjectScore) (files : List FileScore) : Prop where
  complexity : IsMeanOf p.means.complexity FileScore.complexity files
  maintainability : IsMeanOf p.means.maintainability FileScore.size files
  duplication : IsMeanOf p.means.duplication FileScore.duplication files

variable {w : Weighting} {mode : DuplicationMode} {files : List FileScore}

theorem hasMeansOf_ofFiles (h : ∀ f ∈ files, f.IsWhole) (hne : files ≠ [])
    (hlength : 100 * files.length ≤ 2 ^ 53) : (ofFiles files w mode).HasMeansOf files := by
  constructor
  all_goals rw [means_ofFiles]
  · exact isMeanOf_reportedMean (fun f hf => (h f hf).complexity) hne hlength
  · exact isMeanOf_reportedMean (fun f hf => (h f hf).size) hne hlength
  · exact isMeanOf_reportedMean (fun f hf => (h f hf).duplication) hne hlength

/-- The overall score follows the means. -/
theorem atMost_ofFiles (hw : w.fault? = none) {better : List FileScore}
    (h : ∀ f ∈ files, f.IsWhole) (hbetter : ∀ f ∈ better, f.IsWhole)
    (hmeans : (dimensionMeans files).AtMost (dimensionMeans better)) :
    (ofFiles files w mode).AtMost (ofFiles better w mode) := by
  constructor
  · rwa [means_ofFiles, means_ofFiles]
  · rw [overall_ofFiles, overall_ofFiles]
    exact clampScore_mono (Dimensions.dot_mono hw (exists_dimensionMeans (.inr h))
      (exists_dimensionMeans (.inr hbetter)) hmeans)

theorem ofFiles_mono (hw : w.fault? = none) {better : List FileScore}
    (h : ∀ f ∈ files, f.IsWhole) (hbetter : ∀ f ∈ better, f.IsWhole)
    (hle : files.Forall₂ FileScore.AtMost better) :
    (ofFiles files w mode).AtMost (ofFiles better w mode) :=
  atMost_ofFiles hw h hbetter {
    complexity := reportedMean_mono (fun f hf => (h f hf).complexity)
      (hle.imp fun _ _ hfg => hfg.complexity)
    maintainability := reportedMean_mono (fun f hf => (h f hf).size)
      (hle.imp fun _ _ hfg => hfg.size)
    duplication := reportedMean_mono (fun f hf => (h f hf).duplication)
      (hle.imp fun _ _ hfg => hfg.duplication) }

theorem ofFiles_le_insert (hw : w.fault? = none) {before after : List FileScore} {f : FileScore}
    (h : ∀ g ∈ before ++ after, g.IsWhole) (hf : f.IsFull)
    (hlength : 100 * ((before ++ after).length + 1) ≤ 2 ^ 53) :
    (ofFiles (before ++ after) w mode).AtMost (ofFiles (before ++ f :: after) w mode) := by
  have hcomplexity : ∀ g ∈ before ++ after, IsWholeScore g.complexity :=
    fun g hg => (h g hg).complexity
  have hsize : ∀ g ∈ before ++ after, IsWholeScore g.size := fun g hg => (h g hg).size
  have hduplication : ∀ g ∈ before ++ after, IsWholeScore g.duplication :=
    fun g hg => (h g hg).duplication
  apply atMost_ofFiles hw h
  · intro g hg
    exact ⟨forall_isWholeScore_insert hcomplexity hf.complexity g hg,
      forall_isWholeScore_insert hsize hf.size g hg,
      forall_isWholeScore_insert hduplication hf.duplication g hg⟩
  · exact ⟨reportedMean_le_insert hcomplexity hf.complexity hlength,
      reportedMean_le_insert hsize hf.size hlength,
      reportedMean_le_insert hduplication hf.duplication hlength⟩

/-- Each mean is that of the files, rounded once. Better files never lower a mean or the overall
score, and neither does one more file with full scores, as long as sums stay exact with it. -/
theorem ofFiles_means_spec (hw : w.validate = .ok ()) (h : ∀ f ∈ files, f.IsWhole)
    (hlength : 100 * files.length ≤ 2 ^ 53) :
    (files ≠ [] → (ofFiles files w mode).HasMeansOf files) ∧
    (∀ better, (∀ f ∈ better, f.IsWhole) → files.Forall₂ FileScore.AtMost better →
      (ofFiles files w mode).AtMost (ofFiles better w mode)) ∧
    ∀ before after f, files = before ++ after → f.IsFull → 100 * (files.length + 1) ≤ 2 ^ 53 →
      (ofFiles files w mode).AtMost (ofFiles (before ++ f :: after) w mode) := by
  have hfault := (Weighting.validate_eq_ok_iff w).mp hw
  refine ⟨fun hne => hasMeansOf_ofFiles h hne hlength,
    fun better hbetter hle => ofFiles_mono hfault h hbetter hle, ?_⟩
  rintro before after f rfl hf hlength'
  exact ofFiles_le_insert hfault h hf hlength'

def fullScore (path : String) : FileScore :=
  ⟨path, 100.0, 100.0, 100.0, 100.0, .ofFloat 1.0, 0.0, 0.0, 0⟩

theorem isFull_fullScore (path : String) : (fullScore path).IsFull := ⟨rfl, rfl, rfl⟩

theorem ofFiles_means_spec_sampleScore :
    let files := [Tally.sampleScore "a", Tally.sampleScore "b"]
    let better := [Tally.sampleScore "a", fullScore "b"]
    let longer := [Tally.sampleScore "a", fullScore "c", Tally.sampleScore "b"]
    Weighting.v2.validate = .ok () ∧ (∀ f ∈ files, f.IsWhole) ∧
      (ofFiles files .v2 .strict).HasMeansOf files ∧
      (ofFiles files .v2 .strict).AtMost (ofFiles better .v2 .strict) ∧
      (ofFiles files .v2 .strict).AtMost (ofFiles longer .v2 .strict) := by
  intro files better longer
  have hw : Weighting.v2.validate = .ok () := rfl
  have hfiles : ∀ f ∈ files, f.IsWhole := by
    intro f hf
    rcases List.mem_cons.mp hf with rfl | hf
    · exact Tally.isWhole_sampleScore "a"
    · exact List.mem_singleton.mp hf ▸ Tally.isWhole_sampleScore "b"
  have hbetter : ∀ f ∈ better, f.IsWhole := by
    intro f hf
    rcases List.mem_cons.mp hf with rfl | hf
    · exact Tally.isWhole_sampleScore "a"
    · exact List.mem_singleton.mp hf ▸ (isFull_fullScore "b").isWhole
  have hle : files.Forall₂ FileScore.AtMost better :=
    .cons ⟨by decide, by decide, by decide⟩ (.cons ⟨by decide, by decide, by decide⟩ .nil)
  obtain ⟨hmeans, hmono, hinsert⟩ := ofFiles_means_spec hw hfiles (by decide)
  exact ⟨hw, hfiles, hmeans (by decide), hmono better hbetter hle,
    hinsert [Tally.sampleScore "a"] [Tally.sampleScore "b"] (fullScore "c") rfl
      (isFull_fullScore "c") (by decide)⟩

end ProjectScore

end CodeQuality
