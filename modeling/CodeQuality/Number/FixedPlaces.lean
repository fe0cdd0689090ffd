import CodeQuality.Number.Binary64
import CodeQuality.Number.Decimal

/-!
A double with a fixed number of places after the point, rounded from its exact value.
-/

namespace CodeQuality

/-- The whole number nearest to a quotient, a half going to the even neighbour. -/
def roundHalfEven (numerator denominator : Nat) : Nat :=
  let q := numerator / denominator
  let r := numerator % denominator
  if 2 * r < denominator then q
  else if denominator < 2 * r then q + 1
  else if q % 2 = 0 then q else q + 1

-- Digits with a point before the last `places` of them, zeros being put in front as needed.
def withPoint (places digits : Nat) : String :=
  let cs := Decimal.digitChars digits
  let padded := List.replicate (places + 1 - cs.length) '0' ++ cs
  let whole := padded.take (padded.length - places)
  if places = 0 then String.ofList whole
  else String.ofList (whole ++ '.' :: padded.drop (padded.length - places))

/-- The text of a number with `places` digits after the point. A result of zero keeps the sign. -/
def fixedPlaces (places : Nat) (x : Float) : String :=
  match Binary64.ofFloat? x with
  | none => if x.isNaN then "NaN" else if signBit x then "-inf" else "inf"
  | some b =>
    let (numerator, denominator) := b.quotient
    let digits := roundHalfEven (numerator * tenPow places) denominator
    (if b.negative then "-" else "") ++ withPoint places digits

end CodeQuality
