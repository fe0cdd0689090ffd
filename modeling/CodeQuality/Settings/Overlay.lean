import CodeQuality.Toml.Basic

/-!
Laying one table over another. Tables merge key by key; any other value replaces what was there.
-/

namespace CodeQuality.Toml

-- The entries of a value that is a table, and none for any other value.
def tableEntries : Option Toml → Entries
  | some (table entries) => entries
  | _ => []

mutual

-- What a value makes of the value below it, if there is one.
def layOver (below : Option Toml) : Toml → Toml
  | table entries => table (overlay (tableEntries below) entries)
  | v => v

def overlay (base : Entries) : Entries → Entries
  | [] => base
  | (key, v) :: rest => overlay (putEntry key (layOver (base.lookup key) v) base) rest

end

def overlayAll (tables : List Entries) : Entries := tables.foldl overlay []

def get? (path : List String) (v : Toml) : Option Toml :=
  match path, v with
  | [], v => some v
  | key :: path, table entries => (entries.lookup key).bind (get? path)
  | _ :: _, _ => none

end CodeQuality.Toml
