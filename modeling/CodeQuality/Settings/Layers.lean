import CodeQuality.FileTree
import CodeQuality.Settings.Overlay
import CodeQuality.Settings.Schema
import CodeQuality.Toml.Document

/-!
The layers of the settings: one file for the user, one for the repository and one for the working
copy. Later layers win, key by key.
-/

namespace CodeQuality

/-- Whose settings a layer holds. -/
inductive LayerKind where
  | user
  | repository
  | workingCopy
  deriving Repr, DecidableEq

def LayerKind.name : LayerKind → String
  | user => "global"
  | repository => "repository"
  | workingCopy => "local"

structure Layer where
  kind : LayerKind
  path : String
  deriving Repr, DecidableEq

namespace Layer

def repositoryFile : String := "codehealth.toml"

def workingCopyFile : String := ".codehealth/local.toml"

def userFile : String := ".config/codehealth/config.toml"

def userPath (home : String) : String := joinPath home userFile

-- The places to look at, the one that counts least first.
def candidates (root : String) (userPath? : Option String) : List Layer :=
  (userPath?.map (Layer.mk .user)).toList
    ++ [⟨.repository, joinPath root repositoryFile⟩,
      ⟨.workingCopy, joinPath root workingCopyFile⟩]

def present (tree : FileTree) (layers : List Layer) : List Layer :=
  layers.filter fun layer => tree.isFile layer.path

/-- The table of a layer, which must fit the schema by itself, as must the dates and times in parts
of it that the schema passes over. -/
def read (tree : FileTree) (layer : Layer) : Except Failure Toml.Entries := do
  let text ← tree.readText layer.path
  let unfit : Failure := .layer (.unfit layer.path)
  match Toml.parse? text with
  | none => throw unfit
  | some entries =>
    if (Settings.ofEntries? entries).isSome && Toml.entryMomentsFit entries then return entries
    else throw unfit

-- The layers up to the first that cannot be read, and that one.
def begun (tree : FileTree) : List Layer → List Layer
  | [] => []
  | layer :: rest =>
    match layer.read tree with
    | .ok _ => layer :: begun tree rest
    | .error _ => [layer]

end Layer

structure LoadedSettings where
  settings : Settings
  layers : List Layer

namespace LoadedSettings

-- The settings that hold where no layer is there.
def none : LoadedSettings := ⟨Settings.empty, []⟩

def ofMerged (layers : List Layer) (merged : Toml.Entries) : Except Failure LoadedSettings :=
  match SectionShape.settings.surplus? (.table merged) with
  | some (length, keys) => .error (.layer (.surplus length keys))
  | .none =>
    match Settings.ofEntries? merged with
    | some settings => .ok ⟨settings, layers⟩
    | .none => .error (.layer .unfitTogether)

/-- Merges all layers that are there; the first that cannot be read decides. Nothing is loaded if
no layer is there. -/
def load (tree : FileTree) (candidates : List Layer) : Except Failure (Option LoadedSettings) := do
  let layers := Layer.present tree candidates
  if layers.isEmpty then return .none
  let tables ← layers.mapM (Layer.read tree)
  return some (← ofMerged layers (Toml.overlayAll tables))

/-- The profile that the layers make, or the standard one if none is there. -/
def profile (tree : FileTree) (candidates : List Layer) : Except Failure Profile := do
  match ← load tree candidates with
  | some loaded => loaded.settings.resolve
  | .none => return Profile.standard

end LoadedSettings

end CodeQuality
