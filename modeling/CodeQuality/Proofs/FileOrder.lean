import CodeQuality.Proofs.Batches
import CodeQuality.Proofs.MergedTotals
import CodeQuality.Proofs.OverallScores
import CodeQuality.Proofs.ReviewOrder

/-!
The order of the files.

A project has the same score and the same ranking in whatever order its files are listed. Sums
do not depend on the order, since each sub-score is either whole, so that sums are exact, or no
number, which every sum passes on. This holds of every power function and of every profile, also
of those under which sub-scores are lost.
-/

namespace CodeQuality

open Double

/-! ## Sums -/

/-- Whole scores are summed up exactly. -/
theorem scoreSum_eq_wholeFloat {score : FileScore → Float} {files : List FileScore}
    (h : ∀ f ∈ files, IsWholeScore (score f)) (hlength : 100 * files.length ≤ 2 ^ 53) :
    (files.map score).foldl (· + ·) 0.0 = wholeFloat (pointSum score files) := by
  -- On the files that are summed up before the last one.
  induction files using List.reverseRecOn with
  | nil => exact zero_eq_wholeFloat
  | append_singleton rest f ih =>
    have hrest : 100 * rest.length ≤ 2 ^ 53 := by
      rw [List.length_append] at hlength
      omega
    rw [List.map_append, List.foldl_append,
      ih (fun g hg => h g (List.mem_append_left _ hg)) hrest]
    exact Totals.wholeFloat_pointSum_push h hlength

theorem scoreSum_perm {score : FileScore → Float} {as bs : List FileScore} (hperm : as.Perm bs)
    (h : ∀ f ∈ as, (score f).isNaN = true ∨ IsWholeScore (score f))
    (hlength : 100 * as.length ≤ 2 ^ 53) :
    (as.map score).foldl (· + ·) 0.0 = (bs.map score).foldl (· + ·) 0.0 := by
  by_cases hlost : ∃ f ∈ as, (score f).isNaN = true
  · obtain ⟨f, hf, hnan⟩ := hlost
    exact eq_of_isNaN (isNaN_scoreSum hf hnan) (isNaN_scoreSum (hperm.mem_iff.mp hf) hnan)
  · push Not at hlost
    have hwhole : ∀ f ∈ as, IsWholeScore (score f) :=
      fun f hf => (h f hf).resolve_left (hlost f hf)
    rw [scoreSum_eq_wholeFloat hwhole hlength, pointSum_perm hperm,
      scoreSum_eq_wholeFloat (fun f hf => hwhole f (hperm.mem_iff.mpr hf))
        (hperm.length_eq ▸ hlength)]

/-- A file whose sub-scores are whole or no numbers. -/
structure FileScore.IsMeasured (f : FileScore) : Prop where
  complexity : f.complexity.isNaN = true ∨ IsWholeScore f.complexity
  size : f.size.isNaN = true ∨ IsWholeScore f.size
  duplication : f.duplication.isNaN = true ∨ IsWholeScore f.duplication

theorem Profile.isMeasured_measure (power : Power) (p : Profile) (f : SourceFile) :
    (p.measure power f).IsMeasured where
  complexity := Curve.isNaN_or_isWholeScore power p.curves.complexity _
  size := Curve.isNaN_or_isWholeScore power p.curves.size _
  duplication := Curve.isNaN_or_isWholeScore power (p.curves.duplication p.mode) _

theorem ProjectScore.ofFiles_perm {as bs : List FileScore} (hperm : as.Perm bs)
    (h : ∀ f ∈ as, f.IsMeasured) (hlength : 100 * as.length ≤ 2 ^ 53) (w : Weighting)
    (mode : DuplicationMode) : ofFiles as w mode = ofFiles bs w mode := by
  unfold ofFiles
  rw [Totals.ofFiles_eq as, Totals.ofFiles_eq bs, hperm.length_eq,
    scoreSum_perm hperm (fun f hf => (h f hf).complexity) hlength,
    scoreSum_perm hperm (fun f hf => (h f hf).size) hlength,
    scoreSum_perm hperm (fun f hf => (h f hf).duplication) hlength]

/-! ## Projects -/

namespace Profile

variable {power : Power} {p : Profile}

theorem map_path_measure (files : List SourceFile) :
    (files.map (p.measure power)).map FileScore.path = files.map SourceFile.path := by
  rw [List.map_map]
  rfl

theorem exists_scoreProject_iff {files : List SourceFile} :
    (∃ r, p.scoreProject power files = .ok r) ↔
      p.Accepted ∧ (files.map SourceFile.path).Nodup ∧ ∀ f ∈ files, f.fault? = none := by
  simp only [scoreProject_eq_ok_iff, SourceFile.firstRepeat?_eq_none_iff]
  simp

theorem exists_scoreProject_perm {as bs : List SourceFile} (h : as.Perm bs) :
    (∃ r, p.scoreProject power as = .ok r) ↔ ∃ r, p.scoreProject power bs = .ok r := by
  rw [exists_scoreProject_iff, exists_scoreProject_iff, (h.map SourceFile.path).nodup_iff]
  simp only [h.mem_iff]

theorem ofScores_perm (power : Power) (p : Profile) {as bs : List SourceFile} (h : as.Perm bs)
    (hnodup : (as.map SourceFile.path).Nodup) (hlength : 100 * as.length ≤ 2 ^ 53) :
    (Report.ofScores p (as.map (p.measure power))).project =
        (Report.ofScores p (bs.map (p.measure power))).project ∧
      (Report.ofScores p (as.map (p.measure power))).ranking =
        (Report.ofScores p (bs.map (p.measure power))).ranking := by
  have hscores : (as.map (p.measure power)).Perm (bs.map (p.measure power)) := h.map _
  have hmeasured : ∀ f ∈ as.map (p.measure power), f.IsMeasured := by
    intro score hscore
    obtain ⟨f, -, rfl⟩ := List.mem_map.mp hscore
    exact p.isMeasured_measure power f
  constructor
  · exact ProjectScore.ofFiles_perm hscores hmeasured (by rwa [List.length_map]) p.weighting p.mode
  · exact rankFiles_perm hscores (by rwa [map_path_measure])

/-- Files listed in another order are scored if and only if they were before, with the same score
of the project, the same ranking and the scores of the files in the new order. -/
theorem scoreProject_reorder (power : Power) (p : Profile) {n : ℕ} (hn : 100 * n ≤ 2 ^ 53)
    (files : Fin n → SourceFile) (σ : Equiv.Perm (Fin n)) :
    ((∃ r, p.scoreProject power (List.ofFn files) = .ok r) ↔
      ∃ r, p.scoreProject power (List.ofFn (files ∘ σ)) = .ok r) ∧
    ∀ r r', p.scoreProject power (List.ofFn files) = .ok r →
      p.scoreProject power (List.ofFn (files ∘ σ)) = .ok r' →
      r'.project = r.project ∧ r'.ranking = r.ranking ∧
        ∃ scores : Fin n → FileScore,
          r.files = List.ofFn scores ∧ r'.files = List.ofFn (scores ∘ σ) := by
  have hperm : (List.ofFn (files ∘ σ)).Perm (List.ofFn files) := σ.ofFn_comp_perm files
  refine ⟨exists_scoreProject_perm hperm.symm, ?_⟩
  intro r r' hr hr'
  obtain ⟨-, hnodup, -⟩ := exists_scoreProject_iff.mp ⟨r', hr'⟩
  obtain ⟨-, -, -, rfl⟩ := scoreProject_eq_ok_iff.mp hr
  obtain ⟨-, -, -, rfl⟩ := scoreProject_eq_ok_iff.mp hr'
  obtain ⟨hproject, hranking⟩ :=
    ofScores_perm power p hperm hnodup (by rwa [List.length_ofFn])
  refine ⟨hproject, hranking, p.measure power ∘ files, ?_, ?_⟩
  · exact List.map_ofFn
  · exact List.map_ofFn

def mixedFiles : Fin 3 → SourceFile := ![complexFile, plainFile "b", plainFile "c"]

/-- The order does not matter either where the complexity score of a file is lost. -/
theorem scoreProject_reorder_flatOverflow :
    100 * 3 ≤ 2 ^ 53 ∧
      ∃ r r', flatOverflow.scoreProject Power.square (List.ofFn mixedFiles) = .ok r ∧
        flatOverflow.scoreProject Power.square (List.ofFn (mixedFiles ∘ finRotate 3)) = .ok r' ∧
        r'.project = r.project ∧ r'.ranking = r.ranking := by
  have hbound : 100 * 3 ≤ 2 ^ 53 := by decide
  have hfault : ∀ i, (mixedFiles i).fault? = none := by
    intro i
    fin_cases i <;> rfl
  have haccepted : ∃ r, flatOverflow.scoreProject Power.square (List.ofFn mixedFiles) = .ok r :=
    exists_scoreProject_iff.mpr
      ⟨accepted_flatOverflow, by decide, List.forall_mem_ofFn_iff.mpr hfault⟩
  obtain ⟨hiff, hsame⟩ :=
    scoreProject_reorder Power.square flatOverflow hbound mixedFiles (finRotate 3)
  obtain ⟨r', hr'⟩ := hiff.mp haccepted
  obtain ⟨r, hr⟩ := haccepted
  obtain ⟨hproject, hranking, -⟩ := hsame r r' hr hr'
  exact ⟨hbound, r, r', hr, hr', hproject, hranking⟩

end Profile

end CodeQuality
