/-!
TOML values: what a settings file holds, without its spelling.
-/

namespace CodeQuality

inductive Toml where
  | string (s : String)
  | integer (i : Int)
  | float (x : Float)
  | bool (b : Bool)
  /-- A date, a time or both. No setting is one, so its parts are not kept. -/
  | moment
  | array (items : List Toml)
  /-- The keys of a table are distinct. -/
  | table (entries : List (String × Toml))

abbrev Toml.Entries := List (String × Toml)

/-- Sets the value of a key: in its place, or at the end if the key is new. -/
def putEntry {α : Type} (key : String) (value : α) : List (String × α) → List (String × α)
  | [] => [(key, value)]
  | (k, v) :: rest => if k = key then (key, value) :: rest else (k, v) :: putEntry key value rest

theorem lookup_putEntry_self {α : Type} (key : String) (value : α) (entries : List (String × α)) :
    (putEntry key value entries).lookup key = some value := by
  induction entries with
  | nil => simp [putEntry]
  | cons entry rest ih =>
    obtain ⟨k, v⟩ := entry
    by_cases h : k = key
    · simp [putEntry, h]
    · simp [putEntry, h, List.lookup_cons, ih, beq_false_of_ne (Ne.symm h)]

theorem lookup_putEntry_of_ne {α : Type} {key other : String} (h : other ≠ key) (value : α)
    (entries : List (String × α)) :
    (putEntry key value entries).lookup other = entries.lookup other := by
  induction entries with
  | nil => simp [putEntry, List.lookup_cons, beq_false_of_ne h]
  | cons entry rest ih =>
    obtain ⟨k, v⟩ := entry
    by_cases hk : k = key
    · subst hk
      simp [putEntry, List.lookup_cons, beq_false_of_ne h]
    · simp [putEntry, hk, List.lookup_cons, ih]

end CodeQuality
