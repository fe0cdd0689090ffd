import CodeQuality.Fields
import CodeQuality.Json.Basic

/-!
Records in JSON. A record is written as an object, or as an array of its fields in their order,
from which fields at the end may be left out.
-/

namespace CodeQuality

/-- What members of an object that belong to no field mean. -/
inductive Strays where
  | ignored
  | refused
  deriving DecidableEq

namespace Json

def member? (members : List (JsonText × Json)) (name : String) : Option Json :=
  (members.find? (·.1 == some name)).map (·.2)

/-- Whether the members of an object make a record: every key has a text, no field is given
twice, and there are strays only where they are ignored. -/
def fitsRecord (strays : Strays) (names : List String) (members : List (JsonText × Json)) : Bool :=
  members.all (·.1.isSome)
    && names.all (fun name => (members.filter (·.1 == some name)).length ≤ 1)
    && (strays == .ignored
      || members.all fun m => match m.1 with
        | some key => names.contains key
        | none => false)

def fields? (strays : Strays) (names : List String) : Json → Option (List (Option Json))
  | object members =>
    if fitsRecord strays names members then some (names.map (member? members)) else none
  | array items =>
    if items.length ≤ names.length then
      some (items.map some ++ List.replicate (names.length - items.length) none)
    else none
  | _ => none

def float? : Json → Option Float
  | number n => n.toFloat?
  | _ => none

def nat? (bound : Nat) : Json → Option Nat
  | number n => n.toNat? bound
  | _ => none

def word? (j : Json) : Option UInt32 := (j.nat? (twoPow 32)).map Nat.toUInt32

def longWord? (j : Json) : Option UInt64 := (j.nat? (twoPow 64)).map Nat.toUInt64

def bool? : Json → Option Bool
  | bool b => some b
  | _ => none

def string? : Json → Option String
  | string t => t
  | _ => none

-- One of several names: a string, or an object with the name as its one key and `null`.
def name? : Json → Option String
  | string t => t
  | object [(key, null)] => key
  | _ => none

def list? {α : Type} (read : Json → Option α) : Json → Option (List α)
  | array items => items.mapM read
  | _ => none

instance : NumberSource Json := ⟨float?, word?⟩

end Json

end CodeQuality
