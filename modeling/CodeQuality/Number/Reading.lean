import CodeQuality.Number.Decimal

/-!
Numbers as a user types them.
-/

namespace CodeQuality

-- A whole number without a minus sign, below `2 ^ 64`.
def readCount? (text : String) : Option Nat :=
  let digits := match text.toList with
    | '+' :: rest => rest
    | cs => cs
  if digits.isEmpty || !digits.all Char.isDigit then none
  else
    let n := Decimal.ofDigitChars digits
    if n < twoPow 64 then some n else none

-- The exponent of a number, `none` if there is one that is not well formed.
def readExponent? : List Char → Option Int
  | [] => some 0
  | _ :: rest =>
    let (negative, digits) := match rest with
      | '-' :: rest => (true, rest)
      | '+' :: rest => (false, rest)
      | rest => (false, rest)
    if digits.isEmpty || !digits.all Char.isDigit then none
    else
      let n : Int := Decimal.ofDigitChars digits
      some (if negative then -n else n)

/-- A number with digits on at least one side of an optional point and an optional exponent. -/
def readDecimal? (negative : Bool) (cs : List Char) : Option Decimal := do
  let isExponentMark (c : Char) := c = 'e' || c = 'E'
  let mantissa := cs.takeWhile (!isExponentMark ·)
  let whole := mantissa.takeWhile (· ≠ '.')
  let fraction := (mantissa.dropWhile (· ≠ '.')).drop 1
  let digits := whole ++ fraction
  if digits.isEmpty || !digits.all Char.isDigit then none
  else
    let exponent ← readExponent? (cs.dropWhile (!isExponentMark ·))
    return ⟨negative, Decimal.ofDigitChars digits, exponent - fraction.length⟩

-- A number, infinity or what is no number; these two have names, in letters of either case.
def readFloat? (text : String) : Option Float :=
  let (negative, cs) := match text.toList with
    | '-' :: rest => (true, rest)
    | '+' :: rest => (false, rest)
    | cs => (false, cs)
  let name := String.ofList (cs.map Char.toLower)
  if name = "inf" || name = "infinity" then
    some (if negative then -(1.0 / 0.0) else 1.0 / 0.0)
  else if name = "nan" then some (0.0 / 0.0)
  else (readDecimal? negative cs).map Decimal.toFloat

end CodeQuality
