import CodeQuality.Command.Threshold
import CodeQuality.Report.Render

/-!
The words of a command line.

Options that hold everywhere may stand before the name of a command and behind it. Of the options
of a command each is given once; its value follows as a word of its own, or is attached. A value
that follows is looked at only when the next option, flag or operand is, or at the end: until then
a word that means nothing is reported first.
-/

namespace CodeQuality

structure Verbosity where
  quiet : Bool
  /-- How often more was asked for. -/
  more : Nat
  deriving Repr, DecidableEq

structure ScoreOptions where
  input : String
  configDir : Option String
  mode : Option DuplicationMode
  format : ReportFormat
  top : Nat
  failUnder : Option Float

inductive Command where
  | score (options : ScoreOptions)
  | checkConfig (path : String)

structure Invocation where
  verbosity : Verbosity
  command : Command

/-- Why no command is run. -/
inductive ArgumentStop where
  | help
  | version
  /-- The command line makes no sense, for a reason if a threshold is what is wrong. -/
  | misuse (reason : Option ThresholdFault)
  deriving Repr, DecidableEq

namespace Arguments

inductive Verb where
  | score
  | checkConfig
  deriving Repr, DecidableEq

def Verb.all : List Verb := [score, checkConfig]

def Verb.name : Verb → String
  | score => "score"
  | checkConfig => "check-config"

def Verb.ofName? (word : String) : Option Verb := all.find? (·.name = word)

/-- What a command may be given a value for. -/
inductive Slot where
  | operand
  | configDir
  | mode
  | format
  | top
  | failUnder
  deriving Repr, DecidableEq

def Verb.longOption? : Verb → String → Option Slot
  | score, "config-dir" => some .configDir
  | score, "mode" => some .mode
  | score, "format" => some .format
  | score, "top" => some .top
  | score, "fail-under" => some .failUnder
  | _, _ => none

def Verb.shortOption? : Verb → Char → Option Slot
  | score, 'f' => some .format
  | _, _ => none

def formatOfName? : String → Option ReportFormat
  | "json" => some .json
  | "md" => some .markdown
  | _ => none

-- Refuses a value that means nothing for its option.
def Slot.check (slot : Slot) (value : String) : Except ArgumentStop Unit :=
  let require (good : Bool) : Except ArgumentStop Unit :=
    if good then .ok () else .error (.misuse none)
  match slot with
  | operand | configDir => require (!value.isEmpty)
  | mode => require (DuplicationMode.ofName? value).isSome
  | format => require (formatOfName? value).isSome
  | top => require (readCount? value).isSome
  | failUnder =>
    match readThreshold value with
    | .ok _ => .ok ()
    | .error fault => .error (.misuse (some fault))

/-- What has been read of one command's words. -/
structure Draft where
  verbosity : Verbosity
  given : List (Slot × String)
  /-- An option or the operand whose value has not been looked at, and the value unless it has
  still to come. -/
  pending : Option (Slot × Option String)

namespace Draft

def empty : Draft := ⟨⟨false, 0⟩, [], none⟩

-- Gives a value to a slot, which takes one only once.
def give (d : Draft) (slot : Slot) (value : String) : Except ArgumentStop Draft :=
  if (d.given.lookup slot).isSome then .error (.misuse none)
  else do
    slot.check value
    return { d with given := (slot, value) :: d.given }

def settle (d : Draft) : Except ArgumentStop Draft :=
  match d.pending with
  | none => .ok d
  | some (_, none) => .error (.misuse none)
  | some (slot, some value) => Draft.give { d with pending := none } slot value

-- Sets a flag that holds everywhere; `none` if there is no such flag.
def flag? (d : Draft) (name : Char) : Option (Except ArgumentStop Draft) :=
  match name with
  | 'v' => some do
    let d ← d.settle
    return { d with verbosity := { d.verbosity with more := min 255 (d.verbosity.more + 1) } }
  | 'q' => some do
    let d ← d.settle
    if d.verbosity.quiet then throw (.misuse none)
    return { d with verbosity := { d.verbosity with quiet := true } }
  | 'h' => some do
    let _ ← d.settle
    throw .help
  | _ => none

def flagOfLong? : String → Option Char
  | "verbose" => some 'v'
  | "quiet" => some 'q'
  | "help" => some 'h'
  | _ => none

end Draft

-- The name and the attached value of a long option's word without the dashes.
def splitAttached (word : List Char) : String × Option String :=
  let name := String.ofList (word.takeWhile (· ≠ '='))
  match word.dropWhile (· ≠ '=') with
  | [] => (name, none)
  | _ :: value => (name, some (String.ofList value))

def readLong (verb : Verb) (d : Draft) (word : List Char) : Except ArgumentStop Draft :=
  let (name, attached) := splitAttached word
  match verb.longOption? name, attached with
  | some slot, some value => do (← d.settle).give slot value
  | some slot, none => do return { ← d.settle with pending := some (slot, none) }
  | none, none =>
    match (Draft.flagOfLong? name).bind d.flag? with
    | some result => result
    | none => .error (.misuse none)
  | none, some _ => .error (.misuse none)

-- Reads the letters behind a single dash: flags, and at the end perhaps an option, with the rest of
-- the word as its value.
def readShort (verb : Verb) (d : Draft) : List Char → Except ArgumentStop Draft
  | [] => .ok d
  | c :: rest =>
    match verb.shortOption? c with
    | some slot => do
      let d ← d.settle
      match rest with
      | [] => return { d with pending := some (slot, none) }
      | '=' :: value => d.give slot (String.ofList value)
      | value => d.give slot (String.ofList value)
    | none =>
      match d.flag? c with
      | some result => do readShort verb (← result) rest
      | none => .error (.misuse none)

-- Takes a word as the operand, of which there is one.
def readOperand (d : Draft) (word : String) : Except ArgumentStop Draft :=
  let waiting := match d.pending with
    | some (slot, _) => slot == .operand
    | none => false
  if waiting || (d.given.lookup .operand).isSome then .error (.misuse none)
  else do return { ← d.settle with pending := some (.operand, some word) }

-- Reads the words of a command. Behind two dashes alone every word is an operand.
def readWords (verb : Verb) : (onlyOperands : Bool) → Draft → List String →
    Except ArgumentStop Draft
  | _, d, [] => d.settle
  | true, d, word :: rest => do readWords verb true (← readOperand d word) rest
  | false, d, word :: rest =>
    match word.toList with
    | ['-', '-'] => readWords verb true d rest
    | '-' :: '-' :: long => do readWords verb false (← readLong verb d long) rest
    | '-' :: c :: short => do readWords verb false (← readShort verb d (c :: short)) rest
    | _ =>
      match d.pending with
      | some (slot, none) => readWords verb false { d with pending := some (slot, some word) } rest
      | _ => do readWords verb false (← readOperand d word) rest

-- To be quiet and to tell more exclude each other.
def checkVerbosity (v : Verbosity) : Except ArgumentStop Unit :=
  if v.quiet && 0 < v.more then .error (.misuse none) else .ok ()

def commandOf (verb : Verb) (d : Draft) : Except ArgumentStop Command :=
  let given (slot : Slot) : Option String := d.given.lookup slot
  match given .operand with
  | none => .error (.misuse none)
  | some operand =>
    match verb with
    | .checkConfig => .ok (.checkConfig operand)
    | .score => .ok (.score
        { input := operand
          configDir := given .configDir
          mode := (given .mode).bind DuplicationMode.ofName?
          format := ((given .format).bind formatOfName?).getD .markdown
          top := ((given .top).bind readCount?).getD 10
          failUnder := (given .failUnder).bind fun text => (readThreshold text).toOption })

-- Reads a command with its words. What is said there of the verbosity counts more than what was
-- said before it.
def readCommand (verb : Verb) (before : Verbosity) (words : List String) :
    Except ArgumentStop Invocation := do
  let d ← readWords verb false Draft.empty words
  checkVerbosity d.verbosity
  let command ← commandOf verb d
  checkVerbosity before
  let quiet := d.verbosity.quiet || before.quiet
  let more := if 0 < d.verbosity.more then d.verbosity.more else before.more
  return ⟨⟨quiet, more⟩, command⟩

-- Help is given on the program, on a command or on help itself.
def readHelp : List String → ArgumentStop
  | [] => .help
  | [topic] => if topic = "help" || (Verb.ofName? topic).isSome then .help else .misuse none
  | _ => .misuse none

def readLeadingShort (d : Draft) : List Char → Except ArgumentStop Draft
  | [] => .ok d
  | c :: rest =>
    if c = 'V' then .error .version
    else
      match d.flag? c with
      | some result => do readLeadingShort (← result) rest
      | none => .error (.misuse none)

def readLeadingLong (d : Draft) (word : List Char) : Except ArgumentStop Draft :=
  match splitAttached word with
  | ("version", none) => .error .version
  | (name, none) => ((Draft.flagOfLong? name).bind d.flag?).getD (.error (.misuse none))
  | (_, some _) => .error (.misuse none)

def readLeading (d : Draft) : List String → Except ArgumentStop Invocation
  | [] => .error (.misuse none)
  | word :: rest =>
    match Verb.ofName? word with
    | some verb => readCommand verb d.verbosity rest
    | none =>
      if word = "help" then .error (readHelp rest)
      else
        match word.toList with
        | ['-', '-'] => .error (.misuse none)
        | '-' :: '-' :: long => do readLeading (← readLeadingLong d long) rest
        | '-' :: c :: short => do readLeading (← readLeadingShort d (c :: short)) rest
        | _ => .error (.misuse none)

end Arguments

/-- The meaning of the words of a command line. -/
def Invocation.ofWords (words : List String) : Except ArgumentStop Invocation :=
  Arguments.readLeading Arguments.Draft.empty words

end CodeQuality
