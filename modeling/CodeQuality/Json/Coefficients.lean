import CodeQuality.Json.Record

/-!
Sets of coefficients in JSON. None of them takes a member that is no field.

Writing takes the spelling of a number as an argument, since not every double has one in JSON.
-/

namespace CodeQuality

namespace Curve

def ofJson? (j : Json) : Option Curve := (j.fields? .refused fieldNames).bind ofFields?

def toJson (number : Float → Json) (c : Curve) : Json :=
  .record (fieldNames.zip (c.coefficients.map number))

end Curve

namespace Escalation

def ofJson? (j : Json) : Option Escalation := (j.fields? .refused fieldNames).bind ofFields?

def toJson (number : Float → Json) (e : Escalation) : Json :=
  .record (fieldNames.zip (e.coefficients.map number))

end Escalation

namespace Severity.Weights

def ofJson? (j : Json) : Option Severity.Weights := (j.fields? .refused fieldNames).bind ofFields?

def toJson (number : Float → Json) (w : Severity.Weights) : Json :=
  .record (Severity.all.map fun severity => (severity.name, number (w.weight severity)))

end Severity.Weights

namespace Criticism.Weights

def ofJson? (j : Json) : Option Criticism.Weights := (j.fields? .refused fieldNames).bind ofFields?

def toJson (number : Float → Json) (w : Criticism.Weights) : Json :=
  .record (fieldNames.zip
    [number w.impactWeight, number w.complexityWeight, number w.issueWeight, number w.cycleImpact,
     number w.base, .nat w.complexityThreshold.toNat, number w.duplicationThreshold,
     .nat w.sizeThreshold.toNat])

end Criticism.Weights

end CodeQuality
