import CodeQuality.Bundle
import CodeQuality.Command.Console
import CodeQuality.Command.Log

/-!
What the commands do.

A command looks at the tree of files, prints as it goes, and either fails or has an exit code. What
it tells about itself on the way is a function of its own, so that the outcome can be read without
it.
-/

namespace CodeQuality

/-- Where a run takes place. -/
structure Surroundings where
  power : Power
  files : FileTree
  home : Option String

namespace Surroundings

def candidates (s : Surroundings) (root : String) : List Layer :=
  Layer.candidates root (s.home.map Layer.userPath)

def load (s : Surroundings) (root : String) : Except Failure (Option LoadedSettings) :=
  LoadedSettings.load s.files (s.candidates root)

-- A directory must be there, with or without settings.
def checkPath (s : Surroundings) (path : String) : Except Failure Unit :=
  if s.files.hasPath path then .ok () else .error (.noSuchPath path)

def settingsFor (s : Surroundings) (root : String) : Except Failure LoadedSettings := do
  s.checkPath root
  return (← s.load root).getD .none

def readBundle (s : Surroundings) (path : String) : Except Failure (List SourceFile) := do
  s.checkPath path
  Bundle.ofText (← s.files.readText path)

end Surroundings

/-- What a finished run leaves behind. -/
structure Outcome where
  exitCode : UInt32
  stdout : String
  stderr : String
  log : List LogLine

namespace Outcome

def success : UInt32 := 0
def belowThreshold : UInt32 := 1
def invalidInput : UInt32 := 2
def runtimeFailure : UInt32 := 3

-- The exit code of a failure tells a caller's mistake from a failing machine.
def failureCode (f : Failure) : UInt32 :=
  if f.isValidation then invalidInput else runtimeFailure

def version : Outcome := ⟨success, "codehealth 0.3.0\n", "", []⟩

/-- Takes all steps of a command. A failure is told behind all that is printed. -/
def ofSteps (log : List LogLine) (steps : Console UInt32) : Outcome :=
  match steps.runFrom .empty with
  | (.ok code, printed) => ⟨code, printed.stdout, printed.stderr, log⟩
  | (.error f, printed) =>
    ⟨failureCode f, printed.stdout, printed.stderr ++ s!"error: {f.message}\n", log⟩

end Outcome

namespace ScoreOptions

def root (o : ScoreOptions) : String := o.configDir.getD "."

def profile (o : ScoreOptions) (settings : Settings) : Except Failure Profile := do
  let profile ← settings.resolve
  return match o.mode with
    | some mode => profile.withMode mode
    | none => profile

def complaint? (o : ScoreOptions) (overall : Float) : Option String :=
  match o.failUnder with
  | none => none
  | some threshold =>
    if overall < threshold then
      some (s!"overall score {fixedPlaces 2 overall} is below "
        ++ s!"--fail-under {fixedPlaces 2 threshold}")
    else none

-- Prints a report, and then what the quality gate says about it.
def print (o : ScoreOptions) (r : Report) : Console UInt32 := do
  Console.println (r.render o.top o.format)
  match o.complaint? r.project.overall with
  | some complaint =>
    Console.eprintln complaint
    return Outcome.belowThreshold
  | none => return Outcome.success

-- Scores the bundle under given settings. All that concerns settings is looked at before the bundle
-- is.
def runWith (o : ScoreOptions) (s : Surroundings) (settings : Settings) : Console UInt32 := do
  let profile ← o.profile settings
  let files ← s.readBundle o.input
  let report ← profile.scoreProject s.power files
  o.print report

def run (o : ScoreOptions) (s : Surroundings) : Console UInt32 := do
  let loaded ← s.settingsFor o.root
  o.runWith s loaded.settings

end ScoreOptions

def Profile.summary (p : Profile) : String :=
  let shares := p.weighting.shares.toList.map (fixedPlaces 2)
  s!"config ok: duplication mode {p.mode.name}, weighting {p.weighting.scheme.name} "
    ++ "(" ++ "/".intercalate shares ++ ")"

-- Prints the layers that are there, and what they make.
def LoadedSettings.print (loaded : LoadedSettings) (p : Profile) : Console UInt32 := do
  loaded.layers.forM fun layer => Console.println s!"layer {layer.kind.name}: {layer.path}"
  Console.println p.summary
  return Outcome.success

def checkConfig (s : Surroundings) (path : String) : Console UInt32 := do
  let loaded ← s.settingsFor path
  let profile ← loaded.settings.resolve
  loaded.print profile

namespace Command

def run (s : Surroundings) : Command → Console UInt32
  | score options => options.run s
  | checkConfig path => CodeQuality.checkConfig s path

/-! ## Log lines -/

def loadLog (s : Surroundings) (root : String) : List LogLine :=
  let layers := Layer.present s.files (s.candidates root)
  if layers.isEmpty then [.noLayer, .defaults root]
  else (Layer.begun s.files layers).map .layer

-- What scoring a list of files tells: a line per file up to the first that is not valid, then one
-- on the project if all of them are.
def scoreLog (power : Power) (p : Profile) (files : List SourceFile) : List LogLine :=
  match p.scoreProject power files with
  | .ok report => report.files.map .file ++ [.project report.project]
  | .error _ =>
    if (SourceFile.firstRepeat? [] files).isSome then []
    else
      (files.takeWhile (·.fault?.isNone)).map fun f => .file (p.measure power f)

def log (s : Surroundings) : Command → List LogLine
  | checkConfig path => if s.files.hasPath path then loadLog s path else []
  | score options =>
    if s.files.hasPath options.root then
      let profile := do options.profile (← s.settingsFor options.root).settings
      loadLog s options.root ++
        match profile, s.readBundle options.input with
        | .ok profile, .ok files => scoreLog s.power profile files
        | _, _ => []
    else []

end Command

-- Runs a command and keeps the log lines that are to be shown.
def Invocation.run (s : Surroundings) (i : Invocation) : Outcome :=
  .ofSteps ((i.command.log s).filter (LogLine.isShown i.verbosity)) (i.command.run s)

end CodeQuality
