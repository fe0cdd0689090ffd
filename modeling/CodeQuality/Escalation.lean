import CodeQuality.Curve

/-!
The escalation for extreme complexity: a further penalty on the metric itself, from a threshold
past which the complexity score has nothing left to lose.
-/

namespace CodeQuality

structure Escalation where
  threshold : Float
  span : Float
  exponent : Float
  scale : Float

namespace Escalation

def standard : Escalation := ⟨100.0, 100.0, 1.5, 50.0⟩

instance : Inhabited Escalation := ⟨standard⟩

def coefficients (e : Escalation) : List Float := [e.threshold, e.span, e.exponent, e.scale]

def fieldNames : List String := ["threshold", "span", "exponent", "scale"]

-- The penalty past the threshold, before rounding.
def rise (power : Power) (e : Escalation) (complexity : Float) : Float :=
  power ((complexity - e.threshold) / e.span) e.exponent * e.scale

-- Nothing up to the threshold, then a whole number without an upper bound.
def penalty (power : Power) (e : Escalation) (complexity : UInt32) : Float :=
  let c := complexity.toFloat
  if c ≤ e.threshold then 0.0 else roundHalfAway (e.rise power c)

-- All of the coefficients share one rule.
def fault? (e : Escalation) : Option Curve.Fault :=
  if e.coefficients.any (!·.isFinite)
      || e.threshold < 0.0 || e.span ≤ 0.0 || e.exponent ≤ 0.0 || e.scale < 0.0 then
    some .escalation
  else none

end Escalation

end CodeQuality
