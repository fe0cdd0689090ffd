import CodeQuality.Number.NumberStyle
import CodeQuality.Number.Scaled

/-!
JSON values.

A value keeps what later decisions need: a number keeps whether it was written as a whole number,
and a string that names half of a surrogate pair is a string without a text. Of the digits of a
number, 64 bits are kept.
-/

namespace CodeQuality

/-- A number as written, with digits below `2 ^ 64`. -/
inductive JsonNumber where
  | whole (negative : Bool) (magnitude : Nat)
  | decimal (value : Decimal)
  deriving Repr, DecidableEq

/-- The text of a string; none if an escape in it names half of a surrogate pair. -/
abbrev JsonText := Option String

inductive Json where
  | null
  | bool (b : Bool)
  | number (n : JsonNumber)
  | string (text : JsonText)
  | array (items : List Json)
  | object (members : List (JsonText × Json))
  deriving Repr

namespace JsonNumber

/-- A whole number is rounded to the nearest double, any other number scaled to one near it. -/
def toFloat? : JsonNumber → Option Float
  | whole negative magnitude =>
    let x := wholeFloat magnitude
    some (if negative then -x else x)
  | decimal value => value.scaled?

-- A whole number without a sign, below a bound.
def toNat? (bound : Nat) : JsonNumber → Option Nat
  | whole false magnitude => if magnitude < bound then some magnitude else none
  | _ => none

end JsonNumber

namespace Json

def text (s : String) : Json := string (some s)

def nat (n : Nat) : Json := number (.whole false n)

/-- A finite double by its shortest digits; what is no finite number has no spelling and becomes
`null`. -/
def float (x : Float) : Json :=
  match Binary64.ofFloat? x with
  | some b => number (.decimal (b.shortest NumberStyle.data.tie))
  | none => null

def record (members : List (String × Json)) : Json :=
  object (members.map fun (name, value) => (some name, value))

end Json

end CodeQuality
