import CodeQuality.Report

/-!
The report as Markdown.
-/

namespace CodeQuality.Report

def summaryLines (p : ProjectScore) : List String :=
  ["# Code Health Report",
   "",
   "Overall score: " ++ fixedPlaces 2 p.overall
     ++ s!" (weighting {p.scheme.name}, duplication mode {p.mode.name})",
   "",
   "## Dimension Scores",
   "",
   s!"- complexity: {fixedPlaces 2 p.means.complexity}",
   s!"- maintainability: {fixedPlaces 2 p.means.maintainability}",
   s!"- duplication: {fixedPlaces 2 p.means.duplication}",
   s!"- files: {p.fileCount.toNat}",
   "",
   "## Review Priority",
   ""]

def row (f : RankedFile) : String :=
  s!"| {f.rank} | {f.path} | {fixedPlaces 1 f.criticism.toFloat} | {fixedPlaces 0 f.health} |"

def priorityLines (r : Report) (limit : Nat) : List String :=
  let shown := r.top limit
  let hidden := r.ranking.length - shown.length
  if shown.isEmpty then ["- none"]
  else
    ["| # | File | Criticism | Health |", "|---|------|-----------|--------|"]
      ++ shown.map row
      ++ (if 0 < hidden then ["", s!"{hidden} more file(s) not shown"] else [])

-- Every line ends in a line break.
def markdown (r : Report) (limit : Nat) : String :=
  String.join ((summaryLines r.project ++ r.priorityLines limit).map (· ++ "\n"))

end CodeQuality.Report
