import CodeQuality.SourceFile

/-!
The criticism score: how urgently a file wants review. It grows with the file's place in the
dependency graph, its complexity and the number of thresholds it exceeds, and has no upper bound.
-/

namespace CodeQuality.Criticism

structure Weights where
  impactWeight : Float
  complexityWeight : Float
  issueWeight : Float
  cycleImpact : Float
  /-- The score of a file with nothing against it. -/
  base : Float
  complexityThreshold : UInt32
  duplicationThreshold : Float
  sizeThreshold : UInt32

namespace Weights

def standard : Weights := ⟨2.0, 1.0, 0.5, 5.0, 1.0, 10, 0.10, 500⟩

instance : Inhabited Weights := ⟨standard⟩

def fieldNames : List String :=
  ["impact_weight", "complexity_weight", "issue_weight", "cycle_impact", "base",
   "complexity_threshold", "duplication_threshold", "size_threshold"]

/-- The number of thresholds that a file exceeds. -/
def flags (w : Weights) (m : Metrics) : UInt32 :=
  (if w.complexityThreshold < m.complexity then 1 else 0)
    + (if w.duplicationThreshold < m.duplication then 1 else 0)
    + (if w.sizeThreshold < m.lines then 1 else 0)

/-- How much of the project a change to the file touches. -/
def impact (w : Weights) (c : Coupling) : Float :=
  c.incoming.toFloat + c.outgoing.toFloat + (if c.inCycle then w.cycleImpact else 0.0)

def score (w : Weights) (m : Metrics) (c : Coupling) : Float :=
  w.impact c * w.impactWeight
    + m.complexity.toFloat * w.complexityWeight
    + (w.flags m).toFloat * w.issueWeight
    + w.base

inductive Fault where
  | negativeWeight (name : String) (found : Float)
  | baseNotPositive (found : Float)
  | duplicationThreshold (found : Float)

-- The weights that must be numbers from zero on, with the names under which they are set.
def plainWeights (w : Weights) : List (String × Float) :=
  [("impact_weight", w.impactWeight), ("complexity_weight", w.complexityWeight),
   ("issue_weight", w.issueWeight), ("cycle_impact", w.cycleImpact)]

def fault? (w : Weights) : Option Fault :=
  match w.plainWeights.find? fun entry => !isNonNegative entry.2 with
  | some (name, found) => some (.negativeWeight name found)
  | none =>
    if !w.base.isFinite || w.base ≤ 0.0 then some (.baseNotPositive w.base)
    else if !inUnitInterval w.duplicationThreshold then
      some (.duplicationThreshold w.duplicationThreshold)
    else none

end Weights

end CodeQuality.Criticism
