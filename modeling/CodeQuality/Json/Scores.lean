import CodeQuality.Json.Record
import CodeQuality.Report

/-!
Scores and reports in JSON. Members that are no fields are ignored.
-/

namespace CodeQuality

namespace DuplicationMode

def ofJson? (j : Json) : Option DuplicationMode := j.name?.bind ofName?

def toJson (mode : DuplicationMode) : Json := .text mode.name

end DuplicationMode

namespace Scheme

def ofJson? (j : Json) : Option Scheme := j.name?.bind ofName?

def toJson (scheme : Scheme) : Json := .text scheme.name

end Scheme

namespace FileScore

def fieldNames : List String :=
  ["path", "complexity_score", "duplication_score", "size_score", "health_score",
   "criticism_score", "issue_penalty", "extreme_complexity_penalty", "issue_flags"]

def ofJson? (j : Json) : Option FileScore := do
  match ← j.fields? .ignored fieldNames with
  | [path, complexity, duplication, size, health, criticism, issues, escalation, flags] =>
    return ⟨← requiredField Json.string? path, ← requiredField Json.float? complexity,
      ← requiredField Json.float? duplication, ← requiredField Json.float? size,
      ← requiredField Json.float? health, .ofFloat (← requiredField Json.float? criticism),
      ← requiredField Json.float? issues, ← requiredField Json.float? escalation,
      ← requiredField Json.word? flags⟩
  | _ => none

def toJson (number : Float → Json) (f : FileScore) : Json :=
  .record (fieldNames.zip
    [.text f.path, number f.complexity, number f.duplication, number f.size, number f.health,
     number f.criticism.toFloat, number f.issuePenalty, number f.escalationPenalty,
     .nat f.flags.toNat])

end FileScore

namespace ProjectScore

def fieldNames : List String :=
  ["complexity_score", "maintainability_score", "duplication_score", "overall_score",
   "file_count", "duplication_mode", "weighting"]

def ofJson? (j : Json) : Option ProjectScore := do
  match ← j.fields? .ignored fieldNames with
  | [complexity, maintainability, duplication, overall, fileCount, mode, scheme] =>
    return ⟨⟨← requiredField Json.float? complexity, ← requiredField Json.float? maintainability,
        ← requiredField Json.float? duplication⟩,
      ← requiredField Json.float? overall, ← requiredField Json.longWord? fileCount,
      ← requiredField DuplicationMode.ofJson? mode, ← requiredField Scheme.ofJson? scheme⟩
  | _ => none

def toJson (number : Float → Json) (p : ProjectScore) : Json :=
  .record (fieldNames.zip
    [number p.means.complexity, number p.means.maintainability, number p.means.duplication,
     number p.overall, .nat p.fileCount.toNat, p.mode.toJson, p.scheme.toJson])

end ProjectScore

namespace RankedFile

def toJson (number : Float → Json) (f : RankedFile) : Json :=
  .record
    [("rank", .nat f.rank), ("path", .text f.path), ("criticism_score", number f.criticism.toFloat),
     ("health_score", number f.health)]

end RankedFile

namespace Report

def toJson (number : Float → Json) (r : Report) : Json :=
  .record
    [("project", r.project.toJson number),
     ("ranking", .array (r.ranking.map (·.toJson number))),
     ("files", .array (r.files.map (·.toJson number)))]

end Report

end CodeQuality
