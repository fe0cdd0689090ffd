import CodeQuality.ProjectScore
import CodeQuality.Ranking

/-!
The report on a project: its score, the order of review and the files in the order given.
-/

namespace CodeQuality

structure Report where
  project : ProjectScore
  ranking : List RankedFile
  files : List FileScore

namespace Report

def top (r : Report) (limit : Nat) : List RankedFile := r.ranking.take limit

theorem length_top (r : Report) (limit : Nat) :
    (r.top limit).length = min limit r.ranking.length :=
  List.length_take

def ofScores (p : Profile) (files : List FileScore) : Report :=
  ⟨ProjectScore.ofFiles files p.weighting p.mode, rankFiles files, files⟩

end Report

def Profile.scoreProjectBy (traverse : Traversal) (power : Power) (p : Profile)
    (files : List SourceFile) : Except Failure Report := do
  p.validate
  let scores ← p.scoreBatchBy traverse power files
  return Report.ofScores p scores

def Profile.scoreProject (power : Power) (p : Profile) (files : List SourceFile) :
    Except Failure Report :=
  p.scoreProjectBy .inOrder power files

end CodeQuality
