import CodeQuality.Number.Power

/-!
The exact number behind a double: a sign, a whole significand and a power of two.

Rounding to a whole number and the decimal texts are read off this form in exact arithmetic on
`Nat`, so nothing about them depends on a library routine.
-/

namespace CodeQuality

/-- A finite double as `± significand * 2 ^ exponent`. -/
structure Binary64 where
  negative : Bool
  significand : Nat
  exponent : Int
  deriving Repr, DecidableEq

namespace Binary64

-- Numbers without the hidden bit share the exponent of the smallest numbers that have it.
def ofFloat? (x : Float) : Option Binary64 :=
  let bits := x.toBits.toNat
  let negative := decide (twoPow 63 ≤ bits)
  let biased : Nat := bits / twoPow 52 % twoPow 11
  let fraction := bits % twoPow 52
  if biased = 2047 then none
  else if biased = 0 then some ⟨negative, fraction, -1074⟩
  else some ⟨negative, twoPow 52 + fraction, (biased : Int) - 1075⟩

-- The magnitude as a quotient of whole numbers: numerator, then denominator.
def quotient (b : Binary64) : Nat × Nat :=
  if 0 ≤ b.exponent then (b.significand * twoPow b.exponent.toNat, 1)
  else (b.significand, twoPow (-b.exponent).toNat)

end Binary64

-- Whether the sign bit is set, which is the only way to tell the two zeros apart.
def signBit (x : Float) : Bool := decide (twoPow 63 ≤ x.toBits.toNat)

-- A whole number of at most 64 bits as a double.
def wholeFloat (n : Nat) : Float := n.toUInt64.toFloat

/-- The nearest whole number; a half goes away from zero, and a result of zero keeps the sign.

A double with a non-negative exponent is whole already. Below that the magnitude is under
`2 ^ 53`, and `⌊2 * |x|⌋` decides on its own which whole number is nearest. -/
def roundHalfAway (x : Float) : Float :=
  match Binary64.ofFloat? x with
  | none => x
  | some b =>
    if 0 ≤ b.exponent then x
    else
      let halves := b.significand / twoPow (-b.exponent - 1).toNat
      let whole := wholeFloat ((halves + 1) / 2)
      if b.negative then -whole else whole

/-- Limits a number to `[0, 100]`. A number that is no number, and the negative zero, pass. -/
def clampScore (x : Float) : Float :=
  if x < 0.0 then 0.0 else if 100.0 < x then 100.0 else x

-- A number of the unit interval; false of what is no number.
def inUnitInterval (x : Float) : Bool := 0.0 ≤ x && x ≤ 1.0

def isNonNegative (x : Float) : Bool := x.isFinite && !(x < 0.0)

end CodeQuality
