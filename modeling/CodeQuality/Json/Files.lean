import CodeQuality.Json.Record

/-!
Files and their measurements in JSON. Members that are no fields are ignored.
-/

namespace CodeQuality

namespace Severity

def ofJson? (j : Json) : Option Severity := j.name?.bind ofName?

def toJson (s : Severity) : Json := .text s.name

-- An issue is a record with its severity as the only field.
def ofIssueJson? (j : Json) : Option Severity := do
  match ← j.fields? .ignored ["severity"] with
  | [severity] => requiredField ofJson? severity
  | _ => none

def toIssueJson (s : Severity) : Json := .record [("severity", s.toJson)]

end Severity

namespace Metrics

def fieldNames : List String :=
  ["complexity", "lines_of_code", "duplication_ratio", "function_count"]

def ofJson? (j : Json) : Option Metrics := do
  match ← j.fields? .ignored fieldNames with
  | [complexity, lines, duplication, functions] =>
    return ⟨← requiredField Json.word? complexity, ← requiredField Json.word? lines,
      ← requiredField Json.float? duplication, ← defaultedField 0 Json.word? functions⟩
  | _ => none

def toJson (number : Float → Json) (m : Metrics) : Json :=
  .record (fieldNames.zip
    [.nat m.complexity.toNat, .nat m.lines.toNat, number m.duplication, .nat m.functions.toNat])

end Metrics

namespace Coupling

def fieldNames : List String := ["incoming", "outgoing", "in_cycle"]

def ofJson? (j : Json) : Option Coupling := do
  match ← j.fields? .ignored fieldNames with
  | [incoming, outgoing, inCycle] =>
    return ⟨← defaultedField 0 Json.word? incoming, ← defaultedField 0 Json.word? outgoing,
      ← defaultedField false Json.bool? inCycle⟩
  | _ => none

def toJson (c : Coupling) : Json :=
  .record (fieldNames.zip [.nat c.incoming.toNat, .nat c.outgoing.toNat, .bool c.inCycle])

end Coupling

namespace SourceFile

def fieldNames : List String := ["path", "metrics", "issues", "dependencies"]

def ofJson? (j : Json) : Option SourceFile := do
  match ← j.fields? .ignored fieldNames with
  | [path, metrics, issues, coupling] =>
    return ⟨← requiredField Json.string? path, ← requiredField Metrics.ofJson? metrics,
      ← defaultedField [] (Json.list? Severity.ofIssueJson?) issues,
      ← defaultedField default Coupling.ofJson? coupling⟩
  | _ => none

def toJson (number : Float → Json) (f : SourceFile) : Json :=
  .record (fieldNames.zip
    [.text f.path, f.metrics.toJson number, .array (f.issues.map Severity.toIssueJson),
     f.coupling.toJson])

end SourceFile

end CodeQuality
