import CodeQuality.Number.Binary64
import CodeQuality.Number.Decimal

/-!
Decimal numbers as doubles by a product or a quotient.

The digits and the power of ten are taken as doubles, and then multiplied or divided. Each step
rounds, so the result is near the decimal number but not always the double nearest to it.
-/

namespace CodeQuality

def greatestTenPower : Nat := 308

def floatTenPow (n : Nat) : Float := Decimal.toFloat ⟨false, 1, n⟩

-- Appends decimal digits to a number as long as it stays below `2 ^ 64`, with those digits that are
-- left over.
def appendDigits (n : Nat) : List Char → Nat × List Char
  | [] => (n, [])
  | c :: rest =>
    let next := 10 * n + (c.toNat - '0'.toNat)
    if next < twoPow 64 then appendDigits next rest else (n, c :: rest)

namespace Decimal

/-- The magnitude of a decimal number with digits below `2 ^ 64`, by one rounded product, or by one
or two rounded quotients. A product that is not finite is no number, even if the decimal number
itself is within the doubles; a quotient may become zero. -/
def scaledMagnitude? (digits : Nat) (exponent : Int) : Option Float :=
  let x := wholeFloat digits
  let greatest : Int := greatestTenPower
  if digits = 0 then some 0.0
  else if 0 ≤ exponent then
    let product := x * floatTenPow exponent.toNat
    if exponent ≤ greatest && product.isFinite then some product else none
  else if -greatest ≤ exponent then some (x / floatTenPow (-exponent).toNat)
  else if -2 * greatest ≤ exponent then
    some (x / floatTenPow greatestTenPower / floatTenPow (-exponent - greatest).toNat)
  else some 0.0

def scaled? (d : Decimal) : Option Float :=
  (scaledMagnitude? d.digits d.exponent).map fun x => if d.negative then -x else x

end Decimal

end CodeQuality
