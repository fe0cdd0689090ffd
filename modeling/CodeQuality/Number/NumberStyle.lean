import CodeQuality.Number.Shortest

/-!
How the shortest digits of a number are laid out: positionally or with a power of ten, with or
without a fraction for whole numbers.
-/

namespace CodeQuality

/-- The decisions that turn digits into a text. -/
structure NumberStyle where
  /-- Which of two equally near decimals is written. -/
  tie : Tie
  /-- Whether a number of this magnitude is written positionally, the argument being the power of
  ten of its first digit. -/
  positional : Int → Bool
  /-- Whether a positional whole number ends in `.0`. -/
  pointZero : Bool
  /-- Whether a power of ten that is not negative has a sign. -/
  plusSign : Bool

namespace NumberStyle

-- Digits in positional form; `last` is the power of ten of the last one.
def positionalText (pointZero : Bool) (digits : List Char) (last : Int) : List Char :=
  if 0 ≤ last then
    digits ++ List.replicate last.toNat '0' ++ (if pointZero then ['.', '0'] else [])
  else
    let places := (-last).toNat
    let padded := List.replicate (places + 1 - digits.length) '0' ++ digits
    padded.take (padded.length - places) ++ '.' :: padded.drop (padded.length - places)

-- One digit before the point, the others behind it, then the power of ten of the first.
def exponentText (plusSign : Bool) (digits : List Char) (first : Int) : List Char :=
  let fraction := match digits.drop 1 with
    | [] => []
    | rest => '.' :: rest
  let sign := if first < 0 then ['-'] else if plusSign then ['+'] else []
  digits.take 1 ++ fraction ++ 'e' :: sign ++ Decimal.digitChars first.natAbs

-- The text of a decimal number. Zero has one text, whatever its power of ten.
def decimalText (style : NumberStyle) (d : Decimal) : List Char :=
  let digits := Decimal.digitChars d.digits
  let last := if d.digits = 0 then 0 else d.exponent
  let first := last + digits.length - 1
  let sign := if d.negative then ['-'] else []
  sign ++
    (if style.positional first then positionalText style.pointZero digits last
     else exponentText style.plusSign digits first)

def text (style : NumberStyle) (x : Float) : String :=
  match Binary64.ofFloat? x with
  | some b => String.ofList (style.decimalText (b.shortest style.tie))
  | none => if x.isNaN then "NaN" else if signBit x then "-inf" else "inf"

-- Numbers in messages are always positional, and a whole number has no fraction.
def message : NumberStyle := ⟨.up, fun _ => true, false, false⟩

-- Numbers in log lines show a fraction, and a power of ten below `1e-4` and from `1e16` on.
def log : NumberStyle := ⟨.up, fun first => -4 ≤ first && first < 16, true, false⟩

-- Numbers in data files show a fraction, and a signed power of ten below `1e-5` and from `1e16` on.
def data : NumberStyle := ⟨.even, fun first => -5 ≤ first && first < 16, true, true⟩

end NumberStyle

end CodeQuality
