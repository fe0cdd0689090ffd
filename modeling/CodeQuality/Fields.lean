import CodeQuality.Profile

/-!
Reading sets of coefficients from the fields of a record.

A data format hands over one entry per field, in the order of the field names, and none for a
field that is left out. What a format has to know is only how it writes numbers, so the sets of
coefficients are read in the same way from every format.
-/

namespace CodeQuality

class NumberSource (V : Type) where
  /-- A finite or special double. -/
  float? : V → Option Float
  /-- A whole number of 32 bits. -/
  word? : V → Option UInt32

section

variable {V α : Type}

def requiredField (read : V → Option α) (entry : Option V) : Option α := entry.bind read

-- A field with a value for the case that it is left out.
def defaultedField (value : α) (read : V → Option α) : Option V → Option α
  | none => some value
  | some entry => read entry

variable [NumberSource V]

open NumberSource (float? word?)

def Curve.ofFields? : List (Option V) → Option Curve
  | [a, b, c, d, e, f, g, h, i] =>
    return ⟨← requiredField float? a, ← requiredField float? b, ← requiredField float? c,
      ← requiredField float? d, ← requiredField float? e,
      ← defaultedField Curve.defaultQuadraticExponent float? f, ← requiredField float? g,
      ← requiredField float? h, ← requiredField float? i⟩
  | _ => none

def Escalation.ofFields? : List (Option V) → Option Escalation
  | [a, b, c, d] =>
    let e := Escalation.standard
    return ⟨← defaultedField e.threshold float? a, ← defaultedField e.span float? b,
      ← defaultedField e.exponent float? c, ← defaultedField e.scale float? d⟩
  | _ => none

def Severity.Weights.ofFields? : List (Option V) → Option Severity.Weights
  | [a, b, c, d] =>
    let w := Severity.Weights.standard
    return ⟨← defaultedField w.critical float? a, ← defaultedField w.high float? b,
      ← defaultedField w.medium float? c, ← defaultedField w.low float? d⟩
  | _ => none

def Criticism.Weights.ofFields? : List (Option V) → Option Criticism.Weights
  | [a, b, c, d, e, f, g, h] =>
    let w := Criticism.Weights.standard
    return ⟨← defaultedField w.impactWeight float? a, ← defaultedField w.complexityWeight float? b,
      ← defaultedField w.issueWeight float? c, ← defaultedField w.cycleImpact float? d,
      ← defaultedField w.base float? e, ← defaultedField w.complexityThreshold word? f,
      ← defaultedField w.duplicationThreshold float? g,
      ← defaultedField w.sizeThreshold word? h⟩
  | _ => none

end

end CodeQuality
