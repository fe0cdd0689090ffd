import CodeQuality.Severity
import CodeQuality.Text.Blank

/-!
What is known of a file before it is scored: its measurements, its issues and its place in the
dependency graph.
-/

namespace CodeQuality

structure Metrics where
  complexity : UInt32
  lines : UInt32
  /-- The share of duplicated lines. -/
  duplication : Float
  functions : UInt32

structure Coupling where
  incoming : UInt32
  outgoing : UInt32
  inCycle : Bool
  deriving Repr, DecidableEq

instance : Inhabited Coupling := ⟨⟨0, 0, false⟩⟩

structure SourceFile where
  path : String
  metrics : Metrics
  issues : List Severity
  coupling : Coupling

namespace SourceFile

inductive Fault where
  | blankPath
  | duplicationOutOfRange (found : Float)
  | repeated

def fault? (f : SourceFile) : Option Fault :=
  if isBlankText f.path then some .blankPath
  else if !f.metrics.duplication.isFinite || !inUnitInterval f.metrics.duplication then
    some (.duplicationOutOfRange f.metrics.duplication)
  else none

/-- The first path that an earlier file of the list has too, `seen` being the paths before it. -/
def firstRepeat? (seen : List String) : List SourceFile → Option String
  | [] => none
  | f :: rest => if seen.contains f.path then some f.path else firstRepeat? (f.path :: seen) rest

end SourceFile

end CodeQuality
