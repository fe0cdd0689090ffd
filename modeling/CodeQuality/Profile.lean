import CodeQuality.Escalation
import CodeQuality.Failure

/-!
The profile: every coefficient that a run scores with.
-/

namespace CodeQuality

-- One curve per metric, and for duplication one per mode.
structure MetricCurves where
  complexity : Curve
  size : Curve
  duplicationLegacy : Curve
  duplicationStrict : Curve

namespace MetricCurves

def standard : MetricCurves :=
  ⟨.complexity, .size, .duplicationLegacy, .duplicationStrict⟩

instance : Inhabited MetricCurves := ⟨standard⟩

def duplication (c : MetricCurves) : DuplicationMode → Curve
  | .legacy => c.duplicationLegacy
  | .strict => c.duplicationStrict

def complexityScore (power : Power) (c : MetricCurves) (complexity : UInt32) : Float :=
  c.complexity.score power complexity.toFloat

def sizePenalty (power : Power) (c : MetricCurves) (lines : UInt32) : Float :=
  c.size.penalty power lines.toFloat

def sizeScore (power : Power) (c : MetricCurves) (lines : UInt32) : Float :=
  c.size.score power lines.toFloat

def duplicationScore (power : Power) (c : MetricCurves) (mode : DuplicationMode) (share : Float) :
    Float :=
  (c.duplication mode).score power share

def named (c : MetricCurves) : List (String × Curve) :=
  [("complexity", c.complexity), ("size", c.size),
   ("duplication_legacy", c.duplicationLegacy), ("duplication_strict", c.duplicationStrict)]

end MetricCurves

-- Success, or the failure that a fault stands for.
def failIf {α : Type} (toFailure : α → Failure) : Option α → Except Failure Unit
  | some fault => .error (toFailure fault)
  | none => .ok ()

theorem failIf_eq_ok_iff {α : Type} (toFailure : α → Failure) (fault : Option α) :
    failIf toFailure fault = .ok () ↔ fault = none := by
  cases fault <;> simp [failIf]

-- A curve is refused with the name of its metric.
def Curve.validate (name : String) (c : Curve) : Except Failure Unit :=
  failIf (.curve name) c.fault?

-- The first curve that is refused decides.
def MetricCurves.validate (c : MetricCurves) : Except Failure Unit :=
  c.named.forM fun (name, curve) => curve.validate name

def Escalation.validate (e : Escalation) : Except Failure Unit :=
  failIf (.curve "extreme_complexity") e.fault?

def Severity.Weights.validate (w : Severity.Weights) : Except Failure Unit :=
  failIf (fun (severity, found) => .severityWeight severity found) w.fault?

def Criticism.Weights.validate (w : Criticism.Weights) : Except Failure Unit :=
  failIf .criticism w.fault?

def Weighting.validate (w : Weighting) : Except Failure Unit :=
  failIf .weighting w.fault?

def SourceFile.validate (f : SourceFile) : Except Failure Unit :=
  failIf (.file f.path) f.fault?

structure Profile where
  mode : DuplicationMode
  curves : MetricCurves
  escalation : Escalation
  severities : Severity.Weights
  criticism : Criticism.Weights
  weighting : Weighting

namespace Profile

def standard : Profile := ⟨default, default, default, default, default, default⟩

instance : Inhabited Profile := ⟨standard⟩

def withMode (p : Profile) (mode : DuplicationMode) : Profile := { p with mode }

def withWeighting (p : Profile) (weighting : Weighting) : Profile := { p with weighting }

/-- A profile is good if each of its parts is; the first part that is not decides. -/
def validate (p : Profile) : Except Failure Unit := do
  p.curves.validate
  p.escalation.validate
  p.severities.validate
  p.criticism.validate
  p.weighting.validate

theorem validate_standard : standard.validate = .ok () := rfl

end Profile

end CodeQuality
