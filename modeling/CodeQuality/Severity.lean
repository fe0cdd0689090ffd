import CodeQuality.Number.Binary64

/-!
Issues found in a file, each with a severity, and the points that they cost.
-/

namespace CodeQuality

inductive Severity where
  | critical
  | high
  | medium
  | low
  deriving Repr, DecidableEq

namespace Severity

def all : List Severity := [critical, high, medium, low]

def name : Severity → String
  | critical => "critical"
  | high => "high"
  | medium => "medium"
  | low => "low"

def ofName? (s : String) : Option Severity := all.find? (·.name = s)

theorem ofName?_name (s : Severity) : ofName? s.name = some s := by cases s <;> rfl

structure Weights where
  critical : Float
  high : Float
  medium : Float
  low : Float

namespace Weights

def standard : Weights := ⟨20.0, 12.0, 6.0, 2.0⟩

instance : Inhabited Weights := ⟨standard⟩

def fieldNames : List String := Severity.all.map Severity.name

def weight (w : Weights) : Severity → Float
  | .critical => w.critical
  | .high => w.high
  | .medium => w.medium
  | .low => w.low

/-- The sum over all issues, in their order and without a bound. The sum of none is the negative
zero, which is the neutral element of addition on doubles. -/
def penalty (w : Weights) (issues : List Severity) : Float :=
  issues.foldl (fun sum severity => sum + w.weight severity) (-0.0)

-- The first severity whose weight is not a number from zero on.
def fault? (w : Weights) : Option (Severity × Float) :=
  (Severity.all.find? fun severity => !isNonNegative (w.weight severity)).map
    fun severity => (severity, w.weight severity)

end Weights

end Severity

end CodeQuality
