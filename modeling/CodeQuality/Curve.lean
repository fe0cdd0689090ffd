import CodeQuality.Number.Binary64

/-!
Penalty curves.

A metric costs nothing up to a first breakpoint, then rises along a line, then along a power
between the two penalties given for the next breakpoints, and from the last breakpoint on without
bound. Every penalty is a whole number. The power function is a parameter of all that uses it, so
what is said about scores depends on nothing but the laws assumed of that function.
-/

namespace CodeQuality

/-- A power function on doubles: base, then exponent. -/
abbrev Power := Float → Float → Float

structure Curve where
  excellentMax : Float
  linearMax : Float
  quadraticMax : Float
  /-- The penalty at `linearMax`. -/
  linearPenalty : Float
  /-- The penalty at `quadraticMax`. -/
  quadraticPenalty : Float
  quadraticExponent : Float
  exponentialSpan : Float
  exponentialExponent : Float
  exponentialScale : Float

namespace Curve

/-- Cyclomatic complexity: free up to 10, no score left at 100. -/
def complexity : Curve := ⟨10.0, 20.0, 50.0, 30.0, 70.0, 2.0, 50.0, 1.8, 30.0⟩

/-- Lines of code: free up to 200, a line up to 500, slow growth from there. -/
def size : Curve := ⟨200.0, 500.0, 500.0, 20.0, 20.0, 2.0, 1000.0, 1.3, 8.0⟩

/-- The tolerant curve for duplication: free up to a tenth, no score left at 70 %. -/
def duplicationLegacy : Curve := ⟨0.10, 0.20, 0.40, 30.0, 70.0, 2.0, 0.30, 1.5, 30.0⟩

/-- The tight curve for duplication: free up to 3 %, no score left at 40 %. -/
def duplicationStrict : Curve := ⟨0.03, 0.10, 0.20, 30.0, 70.0, 2.0, 0.20, 1.5, 30.0⟩

-- The exponent of the second rise when none is given.
def defaultQuadraticExponent : Float := 2.0

-- The penalty on the line between the first two breakpoints, before rounding.
def linearRise (c : Curve) (x : Float) : Float :=
  (x - c.excellentMax) / (c.linearMax - c.excellentMax) * c.linearPenalty

-- The penalty between the second breakpoint and the third, before rounding.
def quadraticRise (power : Power) (c : Curve) (x : Float) : Float :=
  let fraction := (x - c.linearMax) / (c.quadraticMax - c.linearMax)
  c.linearPenalty + power fraction c.quadraticExponent * (c.quadraticPenalty - c.linearPenalty)

-- The penalty past the last breakpoint, before rounding.
def exponentialRise (power : Power) (c : Curve) (x : Float) : Float :=
  let fraction := (x - c.quadraticMax) / c.exponentialSpan
  c.quadraticPenalty + power fraction c.exponentialExponent * c.exponentialScale

/-- What a metric of value `x` costs: a whole number without an upper bound. A breakpoint belongs
to the part of the curve that ends there. -/
def penalty (power : Power) (c : Curve) (x : Float) : Float :=
  if x ≤ c.excellentMax then 0.0
  else if x ≤ c.linearMax then roundHalfAway (c.linearRise x)
  else if x ≤ c.quadraticMax then roundHalfAway (c.quadraticRise power x)
  else roundHalfAway (c.exponentialRise power x)

/-- What is left of 100 points. -/
def score (power : Power) (c : Curve) (x : Float) : Float :=
  clampScore (100.0 - c.penalty power x)

def coefficients (c : Curve) : List Float :=
  [c.excellentMax, c.linearMax, c.quadraticMax, c.linearPenalty, c.quadraticPenalty,
   c.quadraticExponent, c.exponentialSpan, c.exponentialExponent, c.exponentialScale]

def fieldNames : List String :=
  ["excellent_max", "linear_max", "quadratic_max", "linear_penalty", "quadratic_penalty",
   "quadratic_exponent", "exponential_span", "exponential_exponent", "exponential_scale"]

/-- What can be wrong with the coefficients of a curve, or with those of the escalation. -/
inductive Fault where
  | notFinite
  | negativeStart
  | descendingBreakpoints (first second third : Float)
  | descendingPenalties
  | jumpInEmptyLine
  | jumpInEmptyPower
  | exponentNotPositive
  | spanNotPositive
  | negativeScale
  | escalation

/-- The first rule that the coefficients break. The rules make the curve rise and meet at its
breakpoints, also where two of them coincide. -/
def fault? (c : Curve) : Option Fault :=
  if c.coefficients.any (!·.isFinite) then some .notFinite
  else if c.excellentMax < 0.0 then some .negativeStart
  else if !(c.excellentMax ≤ c.linearMax && c.linearMax ≤ c.quadraticMax) then
    some (.descendingBreakpoints c.excellentMax c.linearMax c.quadraticMax)
  else if c.linearPenalty < 0.0 || c.quadraticPenalty < c.linearPenalty then
    some .descendingPenalties
  else if c.linearMax == c.excellentMax && c.linearPenalty != 0.0 then some .jumpInEmptyLine
  else if c.quadraticMax == c.linearMax && c.quadraticPenalty != c.linearPenalty then
    some .jumpInEmptyPower
  else if c.quadraticExponent ≤ 0.0 || c.exponentialExponent ≤ 0.0 then some .exponentNotPositive
  else if c.exponentialSpan ≤ 0.0 then some .spanNotPositive
  else if c.exponentialScale < 0.0 then some .negativeScale
  else none

end Curve

end CodeQuality
