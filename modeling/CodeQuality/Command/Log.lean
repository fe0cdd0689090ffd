import CodeQuality.Command.Arguments
import CodeQuality.Settings.Layers
import CodeQuality.Text.Terminal

/-!
What a run tells about itself.
-/

namespace CodeQuality

/-- The weight of a log line; the order is from the gravest on. -/
inductive LogLevel where
  | error
  | warn
  | info
  | debug
  deriving Repr, DecidableEq

namespace LogLevel

def name : LogLevel → String
  | error => "ERROR"
  | warn => "WARN"
  | info => "INFO"
  | debug => "DEBUG"

def rank : LogLevel → Nat
  | error => 0
  | warn => 1
  | info => 2
  | debug => 3

def ofVerbosity (v : Verbosity) : LogLevel :=
  if v.quiet then error
  else match v.more with
    | 0 => warn
    | 1 => info
    | _ => debug

end LogLevel

structure LogLine where
  level : LogLevel
  /-- The part of the program that speaks. -/
  target : String
  message : String
  deriving Repr

namespace LogLine

def text (l : LogLine) : String := s!"{l.level.name} {l.target}: {l.message}"

def isShown (v : Verbosity) (l : LogLine) : Bool :=
  l.level.rank ≤ (LogLevel.ofVerbosity v).rank

def number (x : Float) : String := NumberStyle.log.text x

def noLayer : LogLine := ⟨.debug, "codehealth::config", "no config layer present"⟩

-- A value of a field stands as it is.
def layer (l : Layer) : LogLine :=
  ⟨.debug, "codehealth::config",
    s!"applying config layer layer={l.kind.name} path={l.path}"⟩

-- The path is part of the message, where commands for a terminal are spelled.
def defaults (root : String) : LogLine :=
  ⟨.warn, "codehealth",
    s!"no {Layer.repositoryFile} found in {spellCommands root} "
      ++ "(nor a local or global layer), using defaults"⟩

def file (f : FileScore) : LogLine :=
  ⟨.debug, "codehealth::scoring",
    s!"scored file path={f.path} complexity={number f.complexity} "
      ++ s!"duplication={number f.duplication} size={number f.size} "
      ++ s!"health={number f.health} criticism={number f.criticism.toFloat}"⟩

def project (p : ProjectScore) : LogLine :=
  ⟨.info, "codehealth::scoring",
    s!"scored project files={p.fileCount.toNat} overall={number p.overall} "
      ++ s!"mode={p.mode.name} weighting={p.scheme.name}"⟩

end LogLine

end CodeQuality
