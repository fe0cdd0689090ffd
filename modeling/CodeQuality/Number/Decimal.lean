import CodeQuality.Number.Power

/-!
Decimal numbers as they are written: a sign, a whole number of units and a power of ten.
-/

namespace CodeQuality

/-- The number `± digits * 10 ^ exponent`. -/
structure Decimal where
  negative : Bool
  digits : Nat
  exponent : Int
  deriving Repr, DecidableEq

namespace Decimal

def digitChars (n : Nat) : List Char := Nat.toDigits 10 n

def ofDigitChars (cs : List Char) : Nat :=
  cs.foldl (fun n c => 10 * n + (c.toNat - '0'.toNat)) 0

/-- The double nearest to a decimal number, a tie going to the even significand; infinite when
the number is beyond the doubles.

A number below `10 ^ -330` is nearest to zero and one from `10 ^ 310` on to infinity, whatever
its digits, so no power of ten is formed for them. -/
def toFloat (d : Decimal) : Float :=
  let magnitude :=
    if d.digits = 0 then 0.0
    else
      let places := (digitChars d.digits).length + d.exponent
      if 310 < places then 1.0 / 0.0
      else if places < -330 then 0.0
      else if 0 ≤ d.exponent then Float.ofScientific d.digits false d.exponent.toNat
      else Float.ofScientific d.digits true (-d.exponent).toNat
  if d.negative then -magnitude else magnitude

end Decimal

end CodeQuality
