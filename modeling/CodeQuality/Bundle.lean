import CodeQuality.Json.Files
import CodeQuality.Json.Parser

/-!
Metrics bundles: the files of a project as one JSON text.
-/

namespace CodeQuality.Bundle

-- A bundle is a record with the list of files as its only field.
def ofJson? (j : Json) : Option (List SourceFile) := do
  match ← j.fields? .ignored ["files"] with
  | [files] => requiredField (Json.list? SourceFile.ofJson?) files
  | _ => none

def ofText (text : String) : Except Failure (List SourceFile) :=
  match (Json.parse? text).bind ofJson? with
  | some files => .ok files
  | none => .error .bundle

end CodeQuality.Bundle
