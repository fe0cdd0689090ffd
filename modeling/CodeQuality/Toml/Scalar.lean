import CodeQuality.Number.Decimal
import CodeQuality.Text.Hex
import CodeQuality.Toml.Moment

/-!
TOML values of a single word: numbers, truth values, dates and times.

No character that may follow such a value can be part of one, so the longest word is taken first
and must then be a value as a whole.
-/

namespace CodeQuality.Toml.Grammar

def isWordChar (c : Char) : Bool :=
  c.isAlphanum || c = '+' || c = '-' || c = '_' || c = '.' || c = ':'

-- Digits with single underscores between them, as the digits alone.
def digitRun? (isDigit : Char → Bool) : List Char → Option (List Char)
  | [] => none
  | [d] => if isDigit d then some [d] else none
  | d :: '_' :: rest => if isDigit d then (digitRun? isDigit rest).map (d :: ·) else none
  | d :: rest => if isDigit d then (digitRun? isDigit rest).map (d :: ·) else none

def splitSign : List Char → Bool × List Char
  | '-' :: rest => (true, rest)
  | '+' :: rest => (false, rest)
  | cs => (false, cs)

-- The digits of a whole decimal number without sign. A leading zero stands alone.
def wholeDigits? : List Char → Option (List Char)
  | ['0'] => some ['0']
  | '0' :: _ => none
  | cs => digitRun? Char.isDigit cs

-- Whole numbers have 64 bits, one of which is for the sign.
def boundedInteger? (i : Int) : Option Toml :=
  if -(twoPow 63 : Int) ≤ i && i < (twoPow 63 : Int) then some (.integer i) else none

def radixDigitValue (c : Char) : Nat := (hexValue? c).getD 0

-- A whole number in another base, after the mark of the base.
def radixInteger? (base : Nat) (cs : List Char) : Option Toml := do
  let isDigit (c : Char) : Bool := match hexValue? c with
    | some v => v < base
    | none => false
  let digits ← digitRun? isDigit cs
  boundedInteger? (digits.foldl (fun n d => n * base + radixDigitValue d) 0 : Nat)

def integer? : List Char → Option Toml
  | '0' :: 'x' :: rest => radixInteger? 16 rest
  | '0' :: 'o' :: rest => radixInteger? 8 rest
  | '0' :: 'b' :: rest => radixInteger? 2 rest
  | cs => do
    let (negative, digits) := splitSign cs
    let n : Int := Decimal.ofDigitChars (← wholeDigits? digits)
    boundedInteger? (if negative then -n else n)

-- The exponent of a float, which may start with zeros.
def exponentValue? (cs : List Char) : Option Int := do
  let (negative, digits) := splitSign cs
  let n : Int := Decimal.ofDigitChars (← digitRun? Char.isDigit digits)
  return if negative then -n else n

-- The number infinity and what is no number, which have names.
def specialFloat? (negative : Bool) (name : List Char) : Option Float :=
  if name = ['i', 'n', 'f'] then some (if negative then -(1.0 / 0.0) else 1.0 / 0.0)
  else if name = ['n', 'a', 'n'] then some (0.0 / 0.0)
  else none

/-- A float: a whole number with a fraction, an exponent or both. One that is too great for a
double is refused, while one that is too low becomes minus infinity. -/
def float? (cs : List Char) : Option Toml := do
  let (negative, unsigned) := splitSign cs
  match specialFloat? negative unsigned with
  | some x => return .float x
  | none =>
    let isExponentMark (c : Char) := c = 'e' || c = 'E'
    let mantissa := unsigned.takeWhile (!isExponentMark ·)
    let whole ← wholeDigits? (mantissa.takeWhile (· ≠ '.'))
    let fraction ← match mantissa.dropWhile (· ≠ '.') with
      | [] => some []
      | _ :: digits => digitRun? Char.isDigit digits
    let exponent ← match unsigned.dropWhile (!isExponentMark ·) with
      | [] => if fraction.isEmpty then none else some 0
      | _ :: digits => exponentValue? digits
    let x := Decimal.toFloat
      ⟨negative, Decimal.ofDigitChars (whole ++ fraction), exponent - fraction.length⟩
    if x == 1.0 / 0.0 then none else return .float x

/-! ## Words -/

def word? (word : List Char) : Option Toml :=
  if word = ['t', 'r', 'u', 'e'] then some (.bool true)
  else if word = ['f', 'a', 'l', 's', 'e'] then some (.bool false)
  else if isMoment word none then some .moment
  else (integer? word).or (float? word)

/-- A value that is no string, no array and no table, at the front of the text. After a date, a
blank with a digit behind it can only be followed by a time. -/
def scalar? (cs : List Char) : Option (Toml × List Char) :=
  let word := cs.takeWhile isWordChar
  let rest := cs.dropWhile isWordChar
  match date? word, rest with
  | some [], ' ' :: d :: more =>
    if d.isDigit then
      if isMoment word (some ((d :: more).takeWhile isWordChar)) then
        some (.moment, (d :: more).dropWhile isWordChar)
      else none
    else some (.moment, rest)
  | _, _ => (word? word).map fun v => (v, rest)

end CodeQuality.Toml.Grammar
