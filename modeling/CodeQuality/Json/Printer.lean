import CodeQuality.Json.Basic
import CodeQuality.Text.Hex

/-!
Writing JSON: on one line, or with a line per item and member.
-/

namespace CodeQuality.Json

-- A character inside a string. Quotes, backslashes and control characters are escaped.
def escapeChar (c : Char) : List Char :=
  if c = '"' then ['\\', '"']
  else if c = '\\' then ['\\', '\\']
  else if c = '\x08' then ['\\', 'b']
  else if c = '\x0c' then ['\\', 'f']
  else if c = '\n' then ['\\', 'n']
  else if c = '\r' then ['\\', 'r']
  else if c = '\t' then ['\\', 't']
  else if c.toNat < 0x20 then
    '\\' :: 'u' :: '0' :: '0' :: hexByte c.toNat
  else [c]

def quote (s : String) : List Char := '"' :: s.toList.flatMap escapeChar ++ ['"']

-- A string without a text is written as the half of a surrogate pair that it is.
def textChars : JsonText → List Char
  | some s => quote s
  | none => ['"', '\\', 'u', 'd', '8', '0', '0', '"']

def numberChars : JsonNumber → List Char
  | .whole negative magnitude =>
    (if negative then ['-'] else []) ++ Decimal.digitChars magnitude
  | .decimal value => NumberStyle.data.decimalText value

/-- How the parts of arrays and objects are set apart: a break before each part at a depth, and
what follows the colon. -/
structure Layout where
  lineBreak : Nat → List Char
  afterColon : List Char

namespace Layout

def oneLine : Layout := ⟨fun _ => [], []⟩

def indented : Layout := ⟨fun depth => '\n' :: List.replicate (2 * depth) ' ', [' ']⟩

end Layout

mutual

-- The characters of a value whose parts stand at `depth + 1`.
def chars (layout : Layout) (depth : Nat) : Json → List Char
  | null => ['n', 'u', 'l', 'l']
  | bool true => ['t', 'r', 'u', 'e']
  | bool false => ['f', 'a', 'l', 's', 'e']
  | number n => numberChars n
  | string t => textChars t
  | array [] => ['[', ']']
  | array (v :: rest) =>
    '[' :: layout.lineBreak (depth + 1) ++ chars layout (depth + 1) v
      ++ itemChars layout depth rest
  | object [] => ['\x7b', '\x7d']
  | object ((k, v) :: rest) =>
    '\x7b' :: layout.lineBreak (depth + 1) ++ textChars k ++ ':' :: layout.afterColon
      ++ chars layout (depth + 1) v ++ memberChars layout depth rest

def itemChars (layout : Layout) (depth : Nat) : List Json → List Char
  | [] => layout.lineBreak depth ++ [']']
  | v :: rest =>
    ',' :: layout.lineBreak (depth + 1) ++ chars layout (depth + 1) v
      ++ itemChars layout depth rest

def memberChars (layout : Layout) (depth : Nat) : List (JsonText × Json) → List Char
  | [] => layout.lineBreak depth ++ ['\x7d']
  | (k, v) :: rest =>
    ',' :: layout.lineBreak (depth + 1) ++ textChars k ++ ':' :: layout.afterColon
      ++ chars layout (depth + 1) v ++ memberChars layout depth rest

end

def compact (v : Json) : String := String.ofList (v.chars .oneLine 0)

def pretty (v : Json) : String := String.ofList (v.chars .indented 0)

end CodeQuality.Json
