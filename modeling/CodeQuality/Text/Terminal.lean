import CodeQuality.Text.Hex

/-!
Text and the commands of a terminal.

A terminal takes control characters for commands, and so the sequences that an escape character
starts. A text that may hold such commands is shown in one of two ways: without the commands, or
with control characters spelled out.
-/

namespace CodeQuality

/-- What the characters that follow are part of. -/
inductive TerminalState where
  | text
  /-- Nothing has followed the escape character yet. -/
  | escape
  /-- An escape sequence that only lacks its final character. -/
  | escapeEnd
  /-- A sequence with an opening bracket, which has parameters before its final character. -/
  | control
  /-- A string for a device, before its parameters, among them, and behind them. -/
  | deviceStart
  | deviceParameters
  | deviceEnd
  /-- The body of a string, up to a string terminator. -/
  | body
  /-- A command for the system, up to a bell. -/
  | system
  deriving Repr, DecidableEq

namespace TerminalState

-- Whether the byte of the string terminator is part of a character.
def endsBody (c : Char) : Bool := (String.utf8EncodeChar c).contains 0x9C

def afterEscape (c : Char) : TerminalState :=
  if c = '[' then control
  else if c = ']' then system
  else if c = 'P' then deviceStart
  else if c = 'X' || c = '^' || c = '_' then body
  else if c.toNat < 0x20 || 0x7F ≤ c.toNat then escape
  else if c.toNat < 0x30 then escapeEnd
  else text

/-- The state after a character. An escape character starts anew everywhere, and two control
characters end whatever there is. -/
def next (s : TerminalState) (c : Char) : TerminalState :=
  let n := c.toNat
  if c = '\x1b' then escape
  else if c = '\x18' || c = '\x1a' then text
  else match s with
    | text => text
    | escape => afterEscape c
    | escapeEnd => if 0x30 ≤ n && n < 0x7F then text else escapeEnd
    | control => if 0x40 ≤ n && n < 0x7F then text else control
    | deviceStart =>
      if n < 0x20 || 0x7F ≤ n then deviceStart
      else if n < 0x30 then deviceEnd
      else if n < 0x40 then deviceParameters
      else body
    | deviceParameters =>
      if n < 0x20 || 0x7F ≤ n then deviceParameters
      else if n < 0x30 then deviceEnd
      else if n < 0x3C then deviceParameters
      else body
    | deviceEnd => if 0x30 ≤ n && n < 0x7F then body else deviceEnd
    | body => if endsBody c then text else body
    | system => if c = '\x07' then text else system

-- Control characters that move on in a text, and are part of it.
def isLayout (c : Char) : Bool := c = '\t' || c = '\n' || c = '\x0c' || c = '\r'

-- Whether a character is shown. Layout is even inside the shorter sequences.
def shows (s : TerminalState) (c : Char) : Bool :=
  match s with
  | text => isLayout c || (0x20 ≤ c.toNat && c.toNat ≠ 0x7F)
  | escape | escapeEnd | control => isLayout c
  | _ => false

/-- The characters that are shown. A sequence with layout inside is suspended: from there on the
characters are text, until the next one that text does not show. A character beyond ASCII ends it
for good. -/
def visible : (isText : Bool) → TerminalState → List Char → List Char
  | _, _, [] => []
  | isText, s, c :: rest =>
    if shows (if isText then text else s) c then
      c :: visible true (if c.toNat < 0x80 then s else text) rest
    else visible false (s.next c) rest

end TerminalState

def withoutCommands (s : String) : String :=
  String.ofList (TerminalState.visible false .text s.toList)

-- A character in a log message. Those that are commands, or start one, are spelled.
def spellCommand (c : Char) : List Char :=
  if ['\x07', '\x08', '\x0c', '\x1b', '\x7f'].contains c then '\\' :: 'x' :: hexByte c.toNat
  else if 0x80 ≤ c.toNat && c.toNat < 0xA0 then
    '\\' :: 'u' :: '\x7b' :: hexByte c.toNat ++ ['\x7d']
  else [c]

def spellCommands (s : String) : String := String.ofList (s.toList.flatMap spellCommand)

end CodeQuality
