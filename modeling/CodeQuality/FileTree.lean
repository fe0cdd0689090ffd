import CodeQuality.Failure

/-!
What lies at the paths that a run looks at.
-/

namespace CodeQuality

inductive FileEntry where
  | file (bytes : ByteArray)
  /-- A file that the system does not let be read, and why. -/
  | unreadable (reason : String)
  | directory

/-- The entry at each path, none where there is nothing. -/
abbrev FileTree := String → Option FileEntry

namespace FileTree

def hasPath (tree : FileTree) (path : String) : Bool := (tree path).isSome

def isFile (tree : FileTree) (path : String) : Bool :=
  match tree path with
  | some (.file _) | some (.unreadable _) => true
  | some .directory | none => false

def readText (tree : FileTree) (path : String) : Except Failure String :=
  match tree path with
  | none => .error (.noSuchPath path)
  | some .directory => .error (.unreadable .directory)
  | some (.unreadable reason) => .error (.unreadable (.system reason))
  | some (.file bytes) =>
    match String.fromUTF8? bytes with
    | some text => .ok text
    | none => .error (.unreadable .notUtf8)

theorem readText_of_utf8 {tree : FileTree} {path text : String}
    (h : tree path = some (.file text.toUTF8)) : tree.readText path = .ok text := by
  have htext : String.fromUTF8? text.toUTF8 = some text := by
    simp only [String.fromUTF8?, String.toUTF8_eq_toByteArray, dif_pos text.isValidUTF8]
    rfl
  unfold readText
  rw [h]
  dsimp only
  rw [htext]

end FileTree

-- A path below a directory. No slash is put behind one, nor at the front of a path.
def joinPath (directory path : String) : String :=
  match directory.toList.getLast? with
  | none | some '/' => directory ++ path
  | some _ => directory ++ "/" ++ path

end CodeQuality
