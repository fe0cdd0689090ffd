import CodeQuality.FileTree

/-!
A tree of files given by lists.

The paths of a list start at the working directory or at the root, and the directories on the way
to a file exist with it. A path is walked name by name, so that a dot or an empty name stays in a
directory, two dots leave it, and nothing leads through a file.
-/

namespace CodeQuality.FileTree

-- The parts of a text between slashes, of which there is at least one.
def splitSlashes : List Char → List (List Char)
  | [] => [[]]
  | c :: rest =>
    if c = '/' then [] :: splitSlashes rest
    else match splitSlashes rest with
      | [] => [[c]]
      | part :: parts => (c :: part) :: parts

def names (path : String) : List String := (splitSlashes path.toList).map String.ofList

def staysAt (name : String) : Bool := name = "" || name = "."

/-- Files and directories by the names that lead to them. -/
abbrev Listing := List (List String × FileEntry)

-- What is at the end of some names, of which none is a dot or empty.
def Listing.entry? (listing : Listing) (place : List String) : Option FileEntry :=
  match listing.lookup place with
  | some entry => some entry
  | none =>
    if place.isEmpty || listing.any (fun entry => place.isPrefixOf entry.1) then some .directory
    else none

inductive Place where
  /-- Inside the working directory, or at it, by the names that lead there. -/
  | inside (names : List String)
  /-- Below the root, or at it. -/
  | rooted (names : List String)
  /-- At a directory above the working directory, of which nothing else is known. -/
  | above

/-- What is known of the files: a listing from the working directory and one from the root. -/
structure Listings where
  working : Listing
  root : Listing

def Place.entry? (known : Listings) : Place → Option FileEntry
  | inside names => known.working.entry? names
  | rooted names => known.root.entry? names
  | above => some .directory

-- Goes on to the directory that the present one is in. The root is in itself.
def Place.up : Place → Place
  | inside [] => above
  | inside names => inside names.dropLast
  | rooted names => rooted names.dropLast
  | above => above

def Place.go? (known : Listings) (place : Place) (name : String) : Option Place :=
  match place.entry? known with
  | some .directory =>
    if staysAt name then some place
    else if name = ".." then some place.up
    else match place with
      | inside names => some (inside (names ++ [name]))
      | rooted names => some (rooted (names ++ [name]))
      | above => none
  | _ => none

/-- The tree of two lists: one with paths from the working directory, one with paths from the
root. -/
def ofLists (working root : List (String × FileEntry)) : FileTree := fun path =>
  let listing (entries : List (String × FileEntry)) : Listing :=
    entries.map fun (path, entry) => ((names path).filter (!staysAt ·), entry)
  let known : Listings := ⟨listing working, listing root⟩
  if path.isEmpty then none
  else
    let start := if path.toList.head? = some '/' then Place.rooted [] else Place.inside []
    ((names path).foldlM (Place.go? known) start).bind (Place.entry? known)

end CodeQuality.FileTree
