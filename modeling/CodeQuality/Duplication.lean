import CodeQuality.Text.Blank

/-!
The two ways to judge duplicated code, one of which is chosen for a whole run.
-/

namespace CodeQuality

inductive DuplicationMode where
  | legacy
  | strict
  deriving Repr, DecidableEq

namespace DuplicationMode

instance : Inhabited DuplicationMode := ⟨strict⟩

def all : List DuplicationMode := [legacy, strict]

def name : DuplicationMode → String
  | legacy => "legacy"
  | strict => "strict"

def ofName? (s : String) : Option DuplicationMode := all.find? (·.name = s)

theorem ofName?_name (mode : DuplicationMode) : ofName? mode.name = some mode := by
  cases mode <;> rfl

-- Blanks around the name do not count.
def ofText? (s : String) : Option DuplicationMode := ofName? (trimBlanks s)

end DuplicationMode

end CodeQuality
