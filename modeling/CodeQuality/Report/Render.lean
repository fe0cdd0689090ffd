import CodeQuality.Json.Printer
import CodeQuality.Json.Scores
import CodeQuality.Report.Markdown

/-!
The text of a report in one of its formats.
-/

namespace CodeQuality

inductive ReportFormat where
  | json
  | markdown
  deriving Repr, DecidableEq

-- JSON holds the whole report; Markdown the first `limit` files of the order of review.
def Report.render (r : Report) (limit : Nat) : ReportFormat → String
  | .json => (r.toJson Json.float).pretty
  | .markdown => r.markdown limit

end CodeQuality
