import CodeQuality.Proofs.HealthOrder
import CodeQuality.Proofs.OverallScores
import Mathlib.Data.List.Forall2

/-!
The two duplication modes side by side.

A mode decides on nothing but the curve for duplication, so the reports on the same files under the
two modes differ only where duplication enters. With the standard curves the legacy mode is the
tolerant one: what it costs is never more, and this goes through health, the mean and the overall
score.
-/

namespace CodeQuality

open Double

/-- Wherever both are numbers, the first is no less than the second. -/
def NotBelow (x y : Float) : Prop := x.isNaN = false → y.isNaN = false → y ≤ x

/-- Scores that differ in duplication and health alone. -/
structure FileScore.SameButDuplication (a b : FileScore) : Prop where
  path : a.path = b.path
  complexity : a.complexity = b.complexity
  size : a.size = b.size
  criticism : a.criticism = b.criticism
  issuePenalty : a.issuePenalty = b.issuePenalty
  escalationPenalty : a.escalationPenalty = b.escalationPenalty
  flags : a.flags = b.flags

/-- Neither of the two scores that a mode touches is below that of the other file. -/
structure FileScore.MoreTolerant (a b : FileScore) : Prop where
  duplication : b.duplication ≤ a.duplication
  health : NotBelow a.health b.health

/-- The place of a file in the order of review, without its health. -/
def RankedFile.place (f : RankedFile) : Nat × String × DoubleBits := (f.rank, f.path, f.criticism)

namespace Report

/-- Reports that differ in what duplication enters alone. -/
structure SameButDuplication (r s : Report) : Prop where
  files : r.files.Forall₂ FileScore.SameButDuplication s.files
  complexity : r.project.means.complexity = s.project.means.complexity
  maintainability : r.project.means.maintainability = s.project.means.maintainability
  fileCount : r.project.fileCount = s.project.fileCount
  scheme : r.project.scheme = s.project.scheme
  ranking : r.ranking.map RankedFile.place = s.ranking.map RankedFile.place

structure MoreTolerant (r s : Report) : Prop where
  files : r.files.Forall₂ FileScore.MoreTolerant s.files
  duplication : s.project.means.duplication ≤ r.project.means.duplication
  overall : NotBelow r.project.overall s.project.overall

end Report

theorem forall₂_map {α β γ : Type} {R : β → γ → Prop} {f : α → β} {g : α → γ} {items : List α}
    (h : ∀ a ∈ items, R (f a) (g a)) : (items.map f).Forall₂ R (items.map g) := by
  rw [List.forall₂_map_left_iff, List.forall₂_map_right_iff, List.forall₂_same]
  exact h

/-! ## Order of review -/

/-- What is scored may be put in order before it is scored. -/
theorem rankFiles_map {α : Type} (score : α → FileScore) (items : List α) :
    rankFiles (items.map score) =
      (items.mergeSort fun a b => (score a).comesFirst (score b)).zipIdx.map fun (a, index) =>
        ⟨index + 1, (score a).path, (score a).criticism, (score a).health⟩ := by
  have hsort : (items.mergeSort fun a b => (score a).comesFirst (score b)).map score =
      (items.map score).mergeSort FileScore.comesFirst := List.map_mergeSort fun _ _ _ _ => rfl
  unfold rankFiles
  rw [← hsort, List.zipIdx_map, List.map_map]
  rfl

theorem map_place_rankFiles {α : Type} {score score' : α → FileScore}
    (h : ∀ a, (score a).SameButDuplication (score' a)) (items : List α) :
    (rankFiles (items.map score)).map RankedFile.place =
      (rankFiles (items.map score')).map RankedFile.place := by
  have hpath (a : α) := (h a).path
  have hcriticism (a : α) := (h a).criticism
  simp only [rankFiles_map, List.map_map, Function.comp_def, RankedFile.place,
    FileScore.comesFirst, hpath, hcriticism]

/-! ## Health -/

/-- A health score that is a number rises with the score for duplication. -/
theorem composeHealth_notBelow {c d d' s e i : Float} (hc : c.isNaN = true ∨ IsWholeScore c)
    (hs : s.isNaN = true ∨ IsWholeScore s) (he : e.isNaN = true ∨ 0.0 ≤ e) (hd : d' ≤ d)
    (hd' : d ≤ 100.0) (hi : 0.0 ≤ i) :
    NotBelow (composeHealth c d s e i) (composeHealth c d' s e i) := by
  intro hnumber _
  -- No other part is lost, since health would be lost with it.
  rcases hc with hlost | hc
  · rw [isNaN_composeHealth (.inl hlost)] at hnumber
    exact Bool.noConfusion hnumber
  rcases hs with hlost | hs
  · rw [isNaN_composeHealth (.inr (.inr (.inl hlost)))] at hnumber
    exact Bool.noConfusion hnumber
  rcases he with hlost | he
  · rw [isNaN_composeHealth (.inr (.inr (.inr hlost)))] at hnumber
    exact Bool.noConfusion hnumber
  exact composeHealth_mono (le_self hc.isNaN_eq_false) hc.le_hundred hd hd'
    (le_self hs.isNaN_eq_false) hs.le_hundred (le_self (isNaN_eq_false_of_le he).2) he
    (le_self (isNaN_eq_false_of_le hi).2) hi

/-! ## Means and the weighted sum -/

namespace ProjectScore

theorem exists_mem_dimensionMeans {files : List FileScore} {x : Float}
    (hx : x ∈ (dimensionMeans files).toList) (h : x.isNaN = false) :
    ∃ u : ℝ, Denotes x u ∧ 0 ≤ u := by
  rw [Dimensions.toList, List.mem_cons, List.mem_cons, List.mem_singleton] at hx
  rcases hx with rfl | rfl | rfl
  · exact Totals.exists_mean h
  · exact Totals.exists_mean h
  · exact Totals.exists_mean h

/-- An overall score that is a number rises with the mean for duplication. -/
theorem overall_notBelow {means means' : Dimensions} {w : Weighting} (hw : w.fault? = none)
    (hc : means.complexity = means'.complexity)
    (hm : means.maintainability = means'.maintainability)
    (hd : means'.duplication ≤ means.duplication)
    (hmeans : ∀ x ∈ means.toList ++ means'.toList,
      x.isNaN = false → ∃ u : ℝ, Denotes x u ∧ 0 ≤ u) :
    NotBelow (clampScore (means.dot w.shares)) (clampScore (means'.dot w.shares)) := by
  intro hnumber _
  have hreal : ∀ x ∈ means.toList, ∃ u : ℝ, Denotes x u ∧ 0 ≤ u := by
    intro x hx
    apply hmeans x (List.mem_append_left _ hx)
    rw [← Bool.not_eq_true]
    intro hnan
    rw [isNaN_clampScore (Dimensions.isNaN_dot ⟨x, hx, hnan⟩)] at hnumber
    exact Bool.noConfusion hnumber
  have hself {x : Float} (hx : x ∈ means.toList) : x ≤ x := by
    obtain ⟨u, hu, -⟩ := hreal x hx
    exact le_self hu.isNaN_eq_false
  have hle : means'.AtMost means := by
    refine ⟨?_, ?_, hd⟩
    · rw [← hc]
      exact hself (by simp [Dimensions.toList])
    · rw [← hm]
      exact hself (by simp [Dimensions.toList])
  have hreal' : ∀ x ∈ means'.toList, ∃ u : ℝ, Denotes x u ∧ 0 ≤ u :=
    fun x hx => hmeans x (List.mem_append_right _ hx) (hle.isNaN_eq_false hx)
  exact clampScore_mono (Dimensions.dot_mono hw hreal' hreal hle)

end ProjectScore

/-! ## Reports -/

namespace Report

variable {α : Type} {p q : Profile} {score score' : α → FileScore} {items : List α}

theorem means_ofScores (p : Profile) (score : α → FileScore) (items : List α) :
    (ofScores p (items.map score)).project.means =
      Dimensions.map (Totals.mean items.length.toUInt64)
        ⟨(items.map fun a => (score a).complexity).foldl (· + ·) 0.0,
          (items.map fun a => (score a).size).foldl (· + ·) 0.0,
          (items.map fun a => (score a).duplication).foldl (· + ·) 0.0⟩ := by
  unfold ofScores
  rw [ProjectScore.means_ofFiles, ProjectScore.dimensionMeans, List.length_map, List.map_map,
    List.map_map, List.map_map]
  rfl

theorem overall_ofScores (p : Profile) (files : List FileScore) :
    (ofScores p files).project.overall =
      clampScore ((ofScores p files).project.means.dot p.weighting.shares) := rfl

theorem ofScores_sameButDuplication (hw : p.weighting = q.weighting)
    (h : ∀ a, (score a).SameButDuplication (score' a)) (items : List α) :
    (ofScores p (items.map score)).SameButDuplication (ofScores q (items.map score')) where
  files := forall₂_map fun a _ => h a
  complexity := by
    have hcomplexity (a : α) := (h a).complexity
    simp only [means_ofScores, Dimensions.map, hcomplexity]
  maintainability := by
    have hsize (a : α) := (h a).size
    simp only [means_ofScores, Dimensions.map, hsize]
  fileCount := by
    simp only [ofScores, ProjectScore.ofFiles, Totals.ofFiles_eq, Totals.finish, List.length_map]
  scheme := congrArg Weighting.scheme hw
  ranking := map_place_rankFiles h items

theorem ofScores_moreTolerant (hw : p.weighting = q.weighting)
    (haccepted : p.weighting.fault? = none)
    (h : ∀ a, (score a).SameButDuplication (score' a))
    (hscores : ∀ a ∈ items, (score a).MoreTolerant (score' a))
    (hnonneg : ∀ a ∈ items, 0.0 ≤ (score' a).duplication) :
    (ofScores p (items.map score)).MoreTolerant (ofScores q (items.map score')) := by
  have hsame := ofScores_sameButDuplication hw h items
  have hsum : (items.map fun a => (score' a).duplication).foldl (· + ·) 0.0 ≤
      (items.map fun a => (score a).duplication).foldl (· + ·) 0.0 := by
    have hzero : (0.0 : Float) ≤ 0.0 := le_self denotes_zero.isNaN_eq_false
    apply sum_mono (forall₂_map fun a ha => (hscores a ha).duplication) _ hzero hzero
    intro x hx
    obtain ⟨a, ha, rfl⟩ := List.mem_map.mp hx
    exact hnonneg a ha
  have hmean : (ofScores q (items.map score')).project.means.duplication ≤
      (ofScores p (items.map score)).project.means.duplication := by
    rw [means_ofScores, means_ofScores]
    exact Totals.mean_mono hsum
  refine ⟨forall₂_map hscores, hmean, ?_⟩
  rw [overall_ofScores, overall_ofScores, ← hw]
  apply ProjectScore.overall_notBelow haccepted hsame.complexity hsame.maintainability hmean
  intro x hx
  simp only [ofScores, ProjectScore.means_ofFiles] at hx
  rcases List.mem_append.mp hx with hx | hx
  · exact ProjectScore.exists_mem_dimensionMeans hx
  · exact ProjectScore.exists_mem_dimensionMeans hx

end Report

namespace Profile

variable {power : Power} {p : Profile}

/-- The two duplication curves are the standard ones. -/
def HasStandardDuplication (p : Profile) : Prop :=
  p.curves.duplicationLegacy = .duplicationLegacy ∧
    p.curves.duplicationStrict = .duplicationStrict

theorem measure_sameButDuplication (power : Power) (p : Profile) (mode mode' : DuplicationMode)
    (f : SourceFile) : ((p.withMode mode).measure power f).SameButDuplication
      ((p.withMode mode').measure power f) :=
  ⟨rfl, rfl, rfl, rfl, rfl, rfl, rfl⟩

theorem HasStandardDuplication.isWholeScore (hp : p.HasStandardDuplication)
    (h : power.NonNegative) {f : SourceFile} (hf : f.fault? = none) (mode : DuplicationMode) :
    IsWholeScore ((p.withMode mode).measure power f).duplication := by
  have hfinite := SourceFile.isFinite_duplication hf
  cases mode with
  | legacy =>
    show IsWholeScore (p.curves.duplicationLegacy.score power f.metrics.duplication)
    rw [hp.1]
    exact Curve.steady_duplicationLegacy.isWholeScore h hfinite
  | strict =>
    show IsWholeScore (p.curves.duplicationStrict.score power f.metrics.duplication)
    rw [hp.2]
    exact Curve.steady_duplicationStrict.isWholeScore h hfinite

theorem HasStandardDuplication.duplication_le (hp : p.HasStandardDuplication)
    (h : power.Monotone) {f : SourceFile} (hf : f.fault? = none) :
    ((p.withMode .strict).measure power f).duplication ≤
      ((p.withMode .legacy).measure power f).duplication := by
  have hfinite := SourceFile.isFinite_duplication hf
  show p.curves.duplicationStrict.score power f.metrics.duplication ≤
    p.curves.duplicationLegacy.score power f.metrics.duplication
  rw [hp.1, hp.2]
  exact Curve.steady_duplicationLegacy.score_le_score Curve.steady_duplicationStrict
    h.nonNegative hfinite hfinite (Curve.staggered_duplication.penalty_le
      Curve.steady_duplicationLegacy Curve.steady_duplicationStrict h hfinite)

theorem HasStandardDuplication.measure_moreTolerant (hp : p.HasStandardDuplication)
    (haccepted : p.Accepted) (h : power.Monotone) {f : SourceFile} (hf : f.fault? = none) :
    ((p.withMode .legacy).measure power f).MoreTolerant ((p.withMode .strict).measure power f) where
  duplication := hp.duplication_le h hf
  health := composeHealth_notBelow (Curve.isNaN_or_isWholeScore power _ _)
    (Curve.isNaN_or_isWholeScore power _ _)
    (Escalation.isNaN_or_penalty_nonneg h.nonNegative haccepted.escalation _)
    (hp.duplication_le h hf) (hp.isWholeScore h.nonNegative hf .legacy).le_hundred
    (Severity.Weights.penalty_nonneg haccepted.severities _)

variable {files : List SourceFile}

/-- Whatever profile scores a project, it does so in both modes, and the two reports differ only
where duplication enters. With the standard duplication curves the legacy mode is nowhere below the
strict one. -/
theorem scoreProject_modes {report : Report} (h : p.scoreProject power files = .ok report) :
    ∃ strict legacy, (p.withMode .strict).scoreProject power files = .ok strict ∧
      (p.withMode .legacy).scoreProject power files = .ok legacy ∧
      strict.SameButDuplication legacy ∧
      (power.Monotone → p.HasStandardDuplication → legacy.MoreTolerant strict) := by
  obtain ⟨haccepted, hrepeat, hfiles, -⟩ := scoreProject_eq_ok_iff.mp h
  have hscored (mode : DuplicationMode) : (p.withMode mode).scoreProject power files =
      .ok (Report.ofScores (p.withMode mode) (files.map ((p.withMode mode).measure power))) :=
    scoreProject_eq_ok_iff.mpr ⟨haccepted.withMode mode, hrepeat, hfiles, rfl⟩
  have hweighting {mode mode' : DuplicationMode} :
      (p.withMode mode).weighting = (p.withMode mode').weighting := rfl
  exact ⟨_, _, hscored .strict, hscored .legacy,
    Report.ofScores_sameButDuplication hweighting
      (measure_sameButDuplication power p .strict .legacy) files,
    fun hpower hp => Report.ofScores_moreTolerant hweighting haccepted.weighting
      (measure_sameButDuplication power p .legacy .strict)
      (fun f hf => hp.measure_moreTolerant haccepted hpower (hfiles f hf))
      fun f hf => (hp.isWholeScore hpower.nonNegative (hfiles f hf) .strict).nonneg⟩

/-- A file whose complexity score is no number under `flatOverflow`, and one with no such score. -/
def duplicatedFiles : List SourceFile :=
  [⟨"a", ⟨60, 0, 0.15, 0⟩, [.low], default⟩, ⟨"b", ⟨12, 400, 0.18, 2⟩, [], default⟩]

theorem scoreProject_modes_flatOverflow :
    flatOverflow.scoreProject Power.square duplicatedFiles =
      .ok (Report.ofScores flatOverflow (duplicatedFiles.map (flatOverflow.measure Power.square))) ∧
    Power.square.Monotone ∧ flatOverflow.HasStandardDuplication ∧
    ∃ strict legacy,
      (flatOverflow.withMode .strict).scoreProject Power.square duplicatedFiles = .ok strict ∧
      (flatOverflow.withMode .legacy).scoreProject Power.square duplicatedFiles = .ok legacy ∧
      strict.SameButDuplication legacy ∧ legacy.MoreTolerant strict := by
  have hfiles : ∀ f ∈ duplicatedFiles, f.fault? = none := by
    intro f hf
    rcases List.mem_cons.mp hf with rfl | hf
    · decide
    · rw [List.mem_singleton.mp hf]
      decide
  have hscored : flatOverflow.scoreProject Power.square duplicatedFiles =
      .ok (Report.ofScores flatOverflow
        (duplicatedFiles.map (flatOverflow.measure Power.square))) :=
    scoreProject_eq_ok_iff.mpr ⟨accepted_flatOverflow, by decide, hfiles, rfl⟩
  have hstandard : flatOverflow.HasStandardDuplication := ⟨rfl, rfl⟩
  obtain ⟨strict, legacy, hstrict, hlegacy, hsame, htolerant⟩ := scoreProject_modes hscored
  exact ⟨hscored, Power.monotone_square, hstandard, strict, legacy, hstrict, hlegacy, hsame,
    htolerant Power.monotone_square hstandard⟩

end Profile

end CodeQuality
