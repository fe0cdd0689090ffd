import CodeQuality.Json.Basic
import CodeQuality.Text.Hex

/-!
The tokens of a JSON text. Blanks stand between them and are dropped; only space, tab, line feed
and carriage return are blanks.
-/

namespace CodeQuality

inductive JsonToken where
  | openBrace
  | closeBrace
  | openBracket
  | closeBracket
  | comma
  | colon
  | scalar (value : Json)
  /-- A string, which may also be the key of a member. -/
  | string (text : JsonText)
  deriving Repr

/-- One part of a string: a character, or a code that was written as an escape with four
hexadecimal digits. -/
inductive TextUnit where
  | char (c : Char)
  | code (n : Nat)
  deriving Repr

namespace TextUnit

def isHighSurrogate (n : Nat) : Bool := 0xD800 ≤ n && n < 0xDC00

def isLowSurrogate (n : Nat) : Bool := 0xDC00 ≤ n && n < 0xE000

/-- The characters that units stand for. The halves of a surrogate pair stand for one together;
a half without the other stands for none, so the whole has no text. -/
def decode : List TextUnit → Option (List Char)
  | [] => some []
  | char c :: rest => (decode rest).map (c :: ·)
  | code n :: rest =>
    if isHighSurrogate n then
      match rest with
      | code m :: rest =>
        if isLowSurrogate m then
          (decode rest).map (Char.ofNat (0x10000 + (n - 0xD800) * 0x400 + (m - 0xDC00)) :: ·)
        else none
      | _ => none
    else if isLowSurrogate n then none
    else (decode rest).map (Char.ofNat n :: ·)

end TextUnit

namespace JsonToken

def escaped? : Char → Option Char
  | '"' => some '"'
  | '\\' => some '\\'
  | '/' => some '/'
  | 'b' => some '\x08'
  | 'f' => some '\x0c'
  | 'n' => some '\n'
  | 'r' => some '\r'
  | 't' => some '\t'
  | _ => none

-- The units of a string up to its closing quote, and what follows. Control characters must be
-- escaped.
def stringUnits : List Char → Option (List TextUnit × List Char)
  | [] => none
  | '"' :: rest => some ([], rest)
  | '\\' :: 'u' :: a :: b :: c :: d :: rest => do
    let n ← hexNumber? [a, b, c, d]
    let (units, rest) ← stringUnits rest
    return (.code n :: units, rest)
  | '\\' :: e :: rest => do
    let c ← escaped? e
    let (units, rest) ← stringUnits rest
    return (.char c :: units, rest)
  | c :: rest =>
    if c.toNat < 0x20 || c = '\\' then none
    else do
      let (units, rest) ← stringUnits rest
      return (.char c :: units, rest)

def spanDigits (cs : List Char) : List Char × List Char := cs.span Char.isDigit

def fraction? : List Char → Option (List Char × List Char)
  | '.' :: rest =>
    match spanDigits rest with
    | ([], _) => none
    | (digits, rest) => some (digits, rest)
  | rest => some ([], rest)

def exponent? : List Char → Option (Option Int × List Char)
  | e :: rest =>
    if e = 'e' || e = 'E' then
      let (negative, rest) := match rest with
        | '-' :: rest => (true, rest)
        | '+' :: rest => (false, rest)
        | rest => (false, rest)
      match spanDigits rest with
      | ([], _) => none
      | (digits, rest) =>
        let n : Int := Decimal.ofDigitChars digits
        some (some (if negative then -n else n), rest)
    else some (none, e :: rest)
  | [] => some (none, [])

/-- The number of some digits before the point and some behind it. From the first digit that no
longer fits on, digits are dropped; those before the point still count as places, and behind it
the next digit may fit again. -/
def numberOfDigits (negative : Bool) (whole fraction : List Char) (exponent : Option Int) :
    JsonNumber :=
  let (n, dropped) := appendDigits 0 whole
  let (digits, unread) := appendDigits n fraction
  if fraction.isEmpty && exponent.isNone && dropped.isEmpty then .whole negative n
  else
    let places : Nat := fraction.length - unread.length
    .decimal ⟨negative, digits, dropped.length - places + exponent.getD 0⟩

-- A number without its sign. A leading zero stands alone.
def magnitude? (negative : Bool) (cs : List Char) : Option (JsonNumber × List Char) := do
  let (whole, rest) ← match cs with
    | '0' :: rest => some (['0'], rest)
    | cs => match spanDigits cs with
      | ([], _) => none
      | spanned => some spanned
  let (fraction, rest) ← fraction? rest
  let (exponent, rest) ← exponent? rest
  return (numberOfDigits negative whole fraction exponent, rest)

def number? : List Char → Option (JsonNumber × List Char)
  | '-' :: rest => magnitude? true rest
  | cs => magnitude? false cs

-- One token that is no blank, and what follows it.
def next? : List Char → Option (JsonToken × List Char)
  | '\x7b' :: rest => some (openBrace, rest)
  | '\x7d' :: rest => some (closeBrace, rest)
  | '[' :: rest => some (openBracket, rest)
  | ']' :: rest => some (closeBracket, rest)
  | ',' :: rest => some (comma, rest)
  | ':' :: rest => some (colon, rest)
  | 'n' :: 'u' :: 'l' :: 'l' :: rest => some (scalar .null, rest)
  | 't' :: 'r' :: 'u' :: 'e' :: rest => some (scalar (.bool true), rest)
  | 'f' :: 'a' :: 'l' :: 's' :: 'e' :: rest => some (scalar (.bool false), rest)
  | '"' :: rest => do
    let (units, rest) ← stringUnits rest
    return (string ((TextUnit.decode units).map String.ofList), rest)
  | cs => do
    let (n, rest) ← number? cs
    return (scalar (.number n), rest)

def isSpace (c : Char) : Bool := c = ' ' || c = '\t' || c = '\n' || c = '\r'

-- The tokens of a text. Every token takes a character, so the length bounds the `steps`.
def scanSteps : (steps : Nat) → List Char → Option (List JsonToken)
  | _, [] => some []
  | 0, _ :: _ => none
  | steps + 1, c :: cs =>
    if isSpace c then scanSteps steps cs
    else do
      let (token, rest) ← next? (c :: cs)
      return token :: (← scanSteps steps rest)

def scan (cs : List Char) : Option (List JsonToken) := scanSteps cs.length cs

end JsonToken

end CodeQuality
