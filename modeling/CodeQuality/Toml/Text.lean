import CodeQuality.Text.Hex

/-!
The character level of TOML: blanks, comments, line breaks, and the four kinds of strings.

A reader returns what it read and what follows, or nothing if the text is not well formed.
-/

namespace CodeQuality.Toml.Grammar

-- Characters that comments and strings may hold as they are.
def isPlain (c : Char) : Bool := c = '\t' || (0x20 ≤ c.toNat && c.toNat ≠ 0x7F)

def isSpace (c : Char) : Bool := c = ' ' || c = '\t'

def skipBlanks (cs : List Char) : List Char := cs.dropWhile isSpace

-- What follows a line break; a carriage return alone is none.
def lineBreak? : List Char → Option (List Char)
  | '\n' :: rest => some rest
  | '\r' :: '\n' :: rest => some rest
  | _ => none

def skipComment (cs : List Char) : List Char :=
  match cs with
  | '#' :: rest => rest.dropWhile isPlain
  | cs => cs

def endOfLine? (cs : List Char) : Option (List Char) :=
  match skipComment (skipBlanks cs) with
  | [] => some []
  | cs => lineBreak? cs

/-- Passes blanks, comments and line breaks, as they may stand between the items of an array. At
most `steps` lines are passed. -/
def skipLines : (steps : Nat) → List Char → Option (List Char)
  | 0, cs => some (skipBlanks cs)
  | steps + 1, cs =>
    match skipBlanks cs with
    | '#' :: rest => (lineBreak? (rest.dropWhile isPlain)).bind (skipLines steps)
    | '\n' :: rest => skipLines steps rest
    | '\r' :: rest => (lineBreak? ('\r' :: rest)).bind (skipLines steps)
    | cs => some cs

/-! ## Strings -/

-- The character with a code given by hexadecimal digits; surrogates are no characters.
def codeChar? (digits : List Char) : Option Char := do
  let n ← hexNumber? digits
  if h : n.isValidChar then some (Char.ofNatAux n h) else none

def escaped? : Char → Option Char
  | 'b' => some '\x08'
  | 't' => some '\t'
  | 'n' => some '\n'
  | 'f' => some '\x0c'
  | 'r' => some '\r'
  | '"' => some '"'
  | '\\' => some '\\'
  | _ => none

def pushChar (c : Char) (read : Option (List Char × List Char)) :
    Option (List Char × List Char) :=
  read.map fun (cs, rest) => (c :: cs, rest)

-- A string in double quotes, after the opening quote.
def basicString : List Char → Option (List Char × List Char)
  | [] => none
  | '"' :: rest => some ([], rest)
  | '\\' :: 'u' :: a :: b :: c :: d :: rest =>
    (codeChar? [a, b, c, d]).bind fun x => pushChar x (basicString rest)
  | '\\' :: 'U' :: a :: b :: c :: d :: e :: f :: g :: h :: rest =>
    (codeChar? [a, b, c, d, e, f, g, h]).bind fun x => pushChar x (basicString rest)
  | '\\' :: e :: rest => (escaped? e).bind fun x => pushChar x (basicString rest)
  | c :: rest => if isPlain c && c ≠ '\\' then pushChar c (basicString rest) else none

def literalString (cs : List Char) : Option (List Char × List Char) :=
  let isInside (c : Char) := isPlain c && c ≠ '\''
  match cs.dropWhile isInside with
  | '\'' :: rest => some (cs.takeWhile isInside, rest)
  | _ => none

/-- Where a long string stands with regard to a backslash at the end of a line, which takes away
all blanks and line breaks up to the next character. -/
inductive Joining where
  | no
  /-- After the backslash, before the line break. -/
  | sameLine
  /-- After the line break. -/
  | nextLine
  deriving DecidableEq

/-- A string in triple double quotes, after the opening quotes. Up to two quotes may stand inside
and also right before the closing ones. -/
def longBasicString : Joining → List Char → Option (List Char × List Char)
  | _, [] => none
  | .sameLine, ' ' :: rest => longBasicString .sameLine rest
  | .sameLine, '\t' :: rest => longBasicString .sameLine rest
  | .sameLine, '\n' :: rest => longBasicString .nextLine rest
  | .sameLine, '\r' :: '\n' :: rest => longBasicString .nextLine rest
  | .sameLine, _ => none
  | .nextLine, ' ' :: rest => longBasicString .nextLine rest
  | .nextLine, '\t' :: rest => longBasicString .nextLine rest
  | .nextLine, '\n' :: rest => longBasicString .nextLine rest
  | .nextLine, '\r' :: '\n' :: rest => longBasicString .nextLine rest
  | _, '"' :: '"' :: '"' :: '"' :: '"' :: rest => some (['"', '"'], rest)
  | _, '"' :: '"' :: '"' :: '"' :: rest => some (['"'], rest)
  | _, '"' :: '"' :: '"' :: rest => some ([], rest)
  | _, '\n' :: rest => pushChar '\n' (longBasicString .no rest)
  | _, '\r' :: '\n' :: rest => pushChar '\n' (longBasicString .no rest)
  | _, '\\' :: ' ' :: rest => longBasicString .sameLine rest
  | _, '\\' :: '\t' :: rest => longBasicString .sameLine rest
  | _, '\\' :: '\n' :: rest => longBasicString .nextLine rest
  | _, '\\' :: '\r' :: '\n' :: rest => longBasicString .nextLine rest
  | _, '\\' :: 'u' :: a :: b :: c :: d :: rest =>
    (codeChar? [a, b, c, d]).bind fun x => pushChar x (longBasicString .no rest)
  | _, '\\' :: 'U' :: a :: b :: c :: d :: e :: f :: g :: h :: rest =>
    (codeChar? [a, b, c, d, e, f, g, h]).bind fun x => pushChar x (longBasicString .no rest)
  | _, '\\' :: e :: rest => (escaped? e).bind fun x => pushChar x (longBasicString .no rest)
  | _, c :: rest => if isPlain c && c ≠ '\\' then pushChar c (longBasicString .no rest) else none

def longLiteralString : List Char → Option (List Char × List Char)
  | [] => none
  | '\'' :: '\'' :: '\'' :: '\'' :: '\'' :: rest => some (['\'', '\''], rest)
  | '\'' :: '\'' :: '\'' :: '\'' :: rest => some (['\''], rest)
  | '\'' :: '\'' :: '\'' :: rest => some ([], rest)
  | '\n' :: rest => pushChar '\n' (longLiteralString rest)
  | '\r' :: '\n' :: rest => pushChar '\n' (longLiteralString rest)
  | c :: rest => if isPlain c then pushChar c (longLiteralString rest) else none

-- A line break right after the opening of a long string is no part of it.
def skipFirstBreak (cs : List Char) : List Char := (lineBreak? cs).getD cs

def anyString? : List Char → Option (List Char × List Char)
  | '"' :: '"' :: '"' :: rest => longBasicString .no (skipFirstBreak rest)
  | '"' :: rest => basicString rest
  | '\'' :: '\'' :: '\'' :: rest => longLiteralString (skipFirstBreak rest)
  | '\'' :: rest => literalString rest
  | _ => none

end CodeQuality.Toml.Grammar
