import CodeQuality.Number.Binary64
import CodeQuality.Number.Decimal

/-!
The shortest decimal that reads back as a given double.

Every real number of an interval around a double reads as that double. The decimals with a
common power of ten form a grid, and the coarsest grid with a point in the interval gives the
fewest digits. If a grid has a point there, it has one next to the double, so two candidates per
grid decide.
-/

namespace CodeQuality

/-- Which of two equally near candidates is taken. -/
inductive Tie where
  | even
  | up
  deriving Repr, DecidableEq

namespace Binary64

/-- The numbers that read as this double, in units of `2 ^ (exponent - 2)`: the least, the double
itself and the greatest. Below a power of two the neighbours are twice as dense, unless the power
is the least normal number. -/
def readingInterval (b : Binary64) : Nat × Nat × Nat :=
  let m := 4 * b.significand
  let below := if b.significand = twoPow 52 ∧ -1074 < b.exponent then 1 else 2
  (m - below, m, m + 2)

/-- The multiple of `10 ^ power` next to `b` that reads as `b`, in units of that power, if there
is one. The ends of the interval belong to it when the significand is even. -/
def gridPoint? (tie : Tie) (b : Binary64) (power : Int) : Option Nat :=
  let (least, value, greatest) := b.readingInterval
  let binary := b.exponent - 2
  -- Both sides are multiplied by the negative powers, so all of it is whole.
  let left := twoPow binary.toNat * tenPow (-power).toNat
  let unit := tenPow power.toNat * twoPow (-binary).toNat
  let lower := value * left / unit
  let upper := lower + 1
  let endsIn := b.significand % 2 = 0
  let lowerFits := least * left < lower * unit ∨ (endsIn ∧ least * left = lower * unit)
  let upperFits := upper * unit < greatest * left ∨ (endsIn ∧ upper * unit = greatest * left)
  if lowerFits ∧ upperFits then
    let down := value * left - lower * unit
    let rise := upper * unit - value * left
    if down < rise then some lower
    else if rise < down then some upper
    else match tie with
      | .even => some (if lower % 2 = 0 then lower else upper)
      | .up => some upper
  else if lowerFits then some lower
  else if upperFits then some upper
  else none

-- The first grid with a point, from `10 ^ power` down; the last one tried gives its lower
-- neighbour, which is only met with too few `steps`.
def coarsestPoint (tie : Tie) (b : Binary64) : (steps : Nat) → (power : Int) → Nat × Int
  | 0, power =>
    let left := twoPow (b.exponent).toNat * tenPow (-power).toNat
    let unit := tenPow power.toNat * twoPow (-b.exponent).toNat
    (b.significand * left / unit, power)
  | steps + 1, power =>
    match gridPoint? tie b power with
    | some digits => (digits, power)
    | none => coarsestPoint tie b steps (power - 1)

/-- The shortest decimal that reads back. `0.30103` is just above the decimal logarithm of two,
so the search starts at a power of ten above the number, and seventeen digits always suffice. -/
def shortest (tie : Tie) (b : Binary64) : Decimal :=
  if b.significand = 0 then ⟨b.negative, 0, 0⟩
  else
    let start := Int.fdiv ((b.significand.log2 + 1 + b.exponent) * 30103) 100000 + 1
    let (digits, power) := coarsestPoint tie b 24 start
    ⟨b.negative, digits, power⟩

end Binary64

end CodeQuality
