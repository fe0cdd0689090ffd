import CodeQuality.Command.Run

/-!
The command line program.

It reads the few files that a command may look at, runs the command on them and prints the
outcome.
-/

open CodeQuality

namespace CodeQuality.Main

def helpText : String :=
  "Code health scoring: per-file health, review priority and project quality

Usage: codehealth [OPTIONS] <COMMAND>

Commands:
  score <INPUT>        Score a JSON metrics bundle
      --config-dir <DIR>    Directory holding codehealth.toml (the current one if not given)
      --mode <MODE>         Override the configured duplication mode: legacy or strict
  -f, --format <FORMAT>     json or md (md if not given)
      --top <N>             Number of ranked files in the markdown report (10 if not given)
      --fail-under <SCORE>  Exit with code 1 when the overall score is below this value
  check-config <PATH>  Validate the layered configuration of a repository
  help                 Print this message

Options:
  -v, --verbose  Tell more; twice for even more
  -q, --quiet    Tell nothing but errors
  -h, --help     Print this message
  -V, --version  Print the version"

-- The words of the system for why a file cannot be read.
def readingFault : IO.Error → String
  | .permissionDenied _ code details | .hardwareFault code details
  | .resourceExhausted _ code details | .resourceBusy code details | .otherError code details =>
    s!"{details} (os error {code})"
  | fault => toString fault

-- What lies at a path. A path that cannot be followed to its end leads to nothing.
def entryAt (path : String) : IO (Option FileEntry) := do
  try
    if ← (← IO.FS.realPath path).isDir then return some .directory
  catch _ => return none
  try return some (.file (← IO.FS.readBinFile path))
  catch fault => return some (.unreadable (readingFault fault))

def pathsOf (home : Option String) : Command → List String
  | .score o => o.root :: o.input :: layerPaths o.root
  | .checkConfig path => path :: layerPaths path
where
  layerPaths (root : String) : List String :=
    (Layer.candidates root (home.map Layer.userPath)).map (·.path)

def treeOf (paths : List String) : IO FileTree := do
  let entries ← paths.mapM fun path => do return (path, ← entryAt path)
  return fun path => (entries.lookup path).join

def report (o : Outcome) : IO UInt32 := do
  for line in o.log do
    IO.eprintln line.text
  IO.eprint o.stderr
  IO.print o.stdout
  return o.exitCode

def run (words : List String) : IO UInt32 := do
  match Invocation.ofWords words with
  | .error .help =>
    IO.println helpText
    return Outcome.success
  | .error .version => report .version
  | .error (.misuse reason) =>
    match reason with
    | some fault => IO.eprint fault.report
    | none => IO.eprintln helpText
    return Outcome.invalidInput
  | .ok invocation =>
    let home ← IO.getEnv "HOME"
    let files ← treeOf (pathsOf home invocation.command)
    report (invocation.run ⟨Float.pow, files, home⟩)

end CodeQuality.Main

def main (words : List String) : IO UInt32 := CodeQuality.Main.run words
