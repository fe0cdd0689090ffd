import CodeQuality.Toml.Branch
import CodeQuality.Toml.Scalar
import CodeQuality.Toml.Text

/-!
Reading TOML.

A text is a list of sections, each with a header and lines that set a key to a value. The first
section has no header and belongs to the root table.
-/

namespace CodeQuality.Toml

namespace Grammar

/-- Arrays and inline tables nest less deep than this, and dotted keys have fewer parts. -/
def depthLimit : Nat := 80

def isBareKeyChar (c : Char) : Bool := c.isAlphanum || c = '-' || c = '_'

def simpleKey? : List Char → Option (String × List Char)
  | '"' :: rest => (basicString rest).map fun (cs, rest) => (String.ofList cs, rest)
  | '\'' :: rest => (literalString rest).map fun (cs, rest) => (String.ofList cs, rest)
  | cs =>
    if (cs.takeWhile isBareKeyChar).isEmpty then none
    else some (String.ofList (cs.takeWhile isBareKeyChar), cs.dropWhile isBareKeyChar)

-- The parts of a key with points between them, blanks around each part. At most `parts` of them are
-- read.
def keyParts? : (parts : Nat) → List Char → Option (List String × List Char)
  | 0, _ => none
  | parts + 1, cs => do
    let (key, rest) ← simpleKey? (skipBlanks cs)
    match skipBlanks rest with
    | '.' :: rest => do
      let (keys, rest) ← keyParts? parts rest
      return (key :: keys, rest)
    | rest => return ([key], rest)

-- A key as the path of the table that it adds to and the key in that table.
def key? (cs : List Char) : Option ((List String × String) × List Char) := do
  let (keys, rest) ← keyParts? (depthLimit - 1) cs
  let last ← keys.getLast?
  return ((keys.dropLast, last), rest)

def inlineTable? (members : List (List String × String × Toml)) : Option Toml :=
  ((Branch.explicit []).insertAll members).map fun b => b.node.value

mutual

/-- A value of any kind. Every step takes at least a character, so a text's length bounds the
`steps`; `depth` bounds the nesting. -/
def value? : (steps depth : Nat) → List Char → Option (Toml × List Char)
  | 0, _, _ => none
  | steps + 1, depth, cs =>
    match cs with
    | '"' :: _ | '\'' :: _ => (anyString? cs).map fun (s, rest) => (.string (String.ofList s), rest)
    | '[' :: rest =>
      match depth with
      | 0 => none
      | depth + 1 => (items? steps depth rest).map fun (vs, rest) => (.array vs, rest)
    | '\x7b' :: rest =>
      match depth with
      | 0 => none
      | depth + 1 => do
        let (members, rest) ← match skipBlanks rest with
          | '\x7d' :: rest => some ([], rest)
          | rest => members? steps depth rest
        return (← inlineTable? members, rest)
    | cs => scalar? cs

-- The items of an array up to its end; a comma may stand after the last.
def items? : (steps depth : Nat) → List Char → Option (List Toml × List Char)
  | 0, _, _ => none
  | steps + 1, depth, cs => do
    match ← skipLines steps cs with
    | ']' :: rest => return ([], rest)
    | cs => do
      let (v, rest) ← value? steps depth cs
      match ← skipLines steps rest with
      | ']' :: rest => return ([v], rest)
      | ',' :: rest => do
        let (vs, rest) ← items? steps depth rest
        return (v :: vs, rest)
      | _ => none

-- The members of an inline table, of which there is at least one, up to its end.
def members? : (steps depth : Nat) → List Char →
    Option (List (List String × String × Toml) × List Char)
  | 0, _, _ => none
  | steps + 1, depth, cs => do
    let ((path, key), rest) ← key? cs
    match rest with
    | '=' :: rest => do
      let (v, rest) ← value? steps depth (skipBlanks rest)
      match skipBlanks rest with
      | '\x7d' :: rest => return ([(path, key, v)], rest)
      | ',' :: rest => do
        let (members, rest) ← members? steps depth rest
        return ((path, key, v) :: members, rest)
      | _ => none
    | _ => none

end

inductive Line where
  | setting (path : List String) (key : String) (value : Toml)
  /-- A header in single brackets, or in double ones if it starts one `ofMany` tables. -/
  | header (ofMany : Bool) (path : List String) (key : String)

-- A line that is neither empty nor a comment, at its first character that is no blank.
def line? (cs : List Char) : Option (Line × List Char) :=
  match cs with
  | '[' :: '[' :: rest => do
    let ((path, key), rest) ← key? rest
    match rest with
    | ']' :: ']' :: rest => return (.header true path key, ← endOfLine? rest)
    | _ => none
  | '[' :: rest => do
    let ((path, key), rest) ← key? rest
    match rest with
    | ']' :: rest => return (.header false path key, ← endOfLine? rest)
    | _ => none
  | cs => do
    let ((path, key), rest) ← key? cs
    match rest with
    | '=' :: rest => do
      let (v, rest) ← value? (rest.length + 1) (depthLimit - 1) (skipBlanks rest)
      return (.setting path key v, ← endOfLine? rest)
    | _ => none

-- All lines of a text that say something. Every line takes a character, so the length of the text
-- bounds the `steps`.
def lines? : (steps : Nat) → List Char → Option (List Line)
  | 0, cs => if (skipBlanks cs).isEmpty then some [] else none
  | steps + 1, cs =>
    match skipBlanks cs with
    | [] => some []
    | '#' :: rest => (endOfLine? ('#' :: rest)).bind (lines? steps)
    | '\n' :: rest => lines? steps rest
    | '\r' :: rest => (lineBreak? ('\r' :: rest)).bind (lines? steps)
    | cs => do
      let (line, rest) ← line? cs
      return line :: (← lines? steps rest)

def leadingSettings : List Line → List (List String × String × Toml)
  | .setting path key value :: rest => (path, key, value) :: leadingSettings rest
  | _ => []

/-- Adds a section to the tables so far. A table with a header of its own must be new, or have
been passed on the way to another header. -/
def addSection (ofMany : Bool) (path : List String) (key : String)
    (settings : List (List String × String × Toml)) (root : Branch) : Option Branch :=
  root.changeAt false
    (fun parent =>
      match ofMany, parent.get? key with
      | false, none => do
        let b ← (Branch.explicit []).insertAll settings
        return parent.put key b.node
      | false, some (.branch true false entries) => do
        let b ← (Branch.explicit entries).insertAll settings
        return parent.put key b.node
      | true, none => do
        let b ← (Branch.explicit []).insertAll settings
        return parent.put key (.branches [b.entries])
      | true, some (.branches before) => do
        let b ← (Branch.explicit []).insertAll settings
        return parent.put key (.branches (b.entries :: before))
      | _, _ => none)
    path

-- Adds the sections that the lines make up; lines before the first header are passed over.
def addSections (root : Branch) : List Line → Option Branch
  | [] => some root
  | .setting .. :: rest => addSections root rest
  | .header ofMany path key :: rest => do
    let root ← addSection ofMany path key (leadingSettings rest) root
    addSections root rest

def tableOfLines? (lines : List Line) : Option Entries := do
  let root ← (Branch.explicit []).insertAll (leadingSettings lines)
  let root ← addSections root lines
  return Node.values root.entries

end Grammar

-- The root table of a text. A byte order mark at the start is no part of it.
def parse? (text : String) : Option Entries := do
  let cs := match text.toList with
    | '\uFEFF' :: rest => rest
    | cs => cs
  Grammar.tableOfLines? (← Grammar.lines? (cs.length + 1) cs)

theorem parse?_ofList {cs : List Char} (h : cs.head? ≠ some '\uFEFF') :
    parse? (String.ofList cs) =
      (Grammar.lines? (cs.length + 1) cs).bind Grammar.tableOfLines? := by
  unfold parse?
  rw [String.toList_ofList]
  split
  · simp at h
  · rfl

end CodeQuality.Toml
