import CodeQuality.Toml.Basic

/-!
Tables under construction.

Which parts of a text may add to a table depends on how the table came about: by a header of its
own, by being on the way to one, or by a dotted key. So tables keep that while a text is read, and
forget it when it is complete.
-/

namespace CodeQuality.Toml

/-- A place in a text's tables. -/
inductive Node where
  | leaf (value : Toml)
  /-- A table. It is `implicit` if it was only passed on the way to another one, and `dotted` if
  that was by a dotted key. -/
  | branch (implicit dotted : Bool) (entries : List (String × Node))
  /-- Tables with the same double-bracketed header, the last first. -/
  | branches (tables : List (List (String × Node)))

mutual

def Node.value : Node → Toml
  | leaf v => v
  | branch _ _ entries => .table (Node.values entries)
  | branches tables => .array (Node.tableValues tables).reverse

def Node.values : List (String × Node) → Entries
  | [] => []
  | (key, node) :: rest => (key, node.value) :: Node.values rest

def Node.tableValues : List (List (String × Node)) → List Toml
  | [] => []
  | entries :: rest => .table (Node.values entries) :: Node.tableValues rest

end

-- A table that can be added to.
structure Branch where
  implicit : Bool
  dotted : Bool
  entries : List (String × Node)

namespace Branch

-- A table by its own right.
def explicit (entries : List (String × Node)) : Branch := ⟨false, false, entries⟩

def node (b : Branch) : Node := .branch b.implicit b.dotted b.entries

def get? (b : Branch) (key : String) : Option Node := b.entries.lookup key

def put (b : Branch) (key : String) (node : Node) : Branch :=
  { b with entries := putEntry key node b.entries }

/-- Changes the table at a path below `b`. Tables that are missing on the way come about. Of
tables with the same header the last one is meant. A dotted key does not lead through a table that
came about by its own right. -/
def changeAt (dotted : Bool) (change : Branch → Option Branch) :
    (path : List String) → Branch → Option Branch
  | [], b => change b
  | key :: path, b =>
    match b.get? key with
    | none => do
      let child ← changeAt dotted change path ⟨true, dotted, []⟩
      return b.put key child.node
    | some (.branch implicit wasDotted entries) =>
      if dotted && !implicit then none
      else do
        let child ← changeAt dotted change path ⟨implicit, wasDotted, entries⟩
        return b.put key child.node
    | some (.branches (entries :: before)) => do
      let child ← changeAt dotted change path (explicit entries)
      return b.put key (.branches (child.entries :: before))
    | some _ => none

/-- Adds one value under a key that is new. The table that a dotted key adds to must have come
about by a dotted key itself. -/
def insert (path : List String) (key : String) (value : Toml) (b : Branch) : Option Branch :=
  changeAt true
    (fun t =>
      if t.dotted == path.isEmpty then none
      else match t.get? key with
        | some _ => none
        | none => some (t.put key (.leaf value)))
    path b

def insertAll (values : List (List String × String × Toml)) (b : Branch) : Option Branch :=
  values.foldlM (fun b (path, key, value) => b.insert path key value) b

end Branch

end CodeQuality.Toml
