import CodeQuality.Number.Binary64
import CodeQuality.Text.Blank

/-!
The three dimensions of a project's quality and the share that each has in the overall score.
-/

namespace CodeQuality

/-- One number per dimension: complexity, maintainability (which is size) and duplication. -/
structure Dimensions where
  complexity : Float
  maintainability : Float
  duplication : Float

namespace Dimensions

def map (f : Float → Float) (d : Dimensions) : Dimensions :=
  ⟨f d.complexity, f d.maintainability, f d.duplication⟩

def zipWith (f : Float → Float → Float) (a b : Dimensions) : Dimensions :=
  ⟨f a.complexity b.complexity, f a.maintainability b.maintainability,
    f a.duplication b.duplication⟩

def toList (d : Dimensions) : List Float := [d.complexity, d.maintainability, d.duplication]

-- The sum of the products, from complexity to duplication.
def dot (a b : Dimensions) : Float :=
  a.complexity * b.complexity + a.maintainability * b.maintainability
    + a.duplication * b.duplication

end Dimensions

/-- Where the shares come from; a result names it, so that only like is compared with like. -/
inductive Scheme where
  | v1
  | v2
  | custom
  deriving Repr, DecidableEq

namespace Scheme

def all : List Scheme := [v1, v2, custom]

def name : Scheme → String
  | v1 => "v1"
  | v2 => "v2"
  | custom => "custom"

def ofName? (s : String) : Option Scheme := all.find? (·.name = s)

theorem ofName?_name (scheme : Scheme) : ofName? scheme.name = some scheme := by
  cases scheme <;> rfl

end Scheme

structure Weighting where
  shares : Dimensions
  scheme : Scheme

namespace Weighting

-- The superseded shares, with which older reports can be computed again.
def v1 : Weighting := ⟨⟨0.40, 0.30, 0.30⟩, .v1⟩

def v2 : Weighting := ⟨⟨0.45, 0.30, 0.25⟩, .v2⟩

instance : Inhabited Weighting := ⟨v2⟩

inductive Fault where
  | shareOutOfRange
  | wrongSum (sum : Float)
  | unknownScheme (name : String)
  | schemeAndShares
  | unknownKeys (keys : List String)
  | missingKey (key : String)

-- The shares added up from the negative zero on, which changes no sum of a positive share.
def sum (w : Weighting) : Float :=
  w.shares.toList.foldl (· + ·) (-0.0)

/-- Each share is a part of the whole, and together they make one within `1e-9`. -/
def fault? (w : Weighting) : Option Fault :=
  if w.shares.toList.any fun share => !share.isFinite || !inUnitInterval share then
    some .shareOutOfRange
  else if 1e-9 < (w.sum - 1.0).abs then some (.wrongSum w.sum)
  else none

theorem fault?_v1 : v1.fault? = none := rfl

theorem fault?_v2 : v2.fault? = none := rfl

def custom (shares : Dimensions) : Except Fault Weighting :=
  let w : Weighting := ⟨shares, .custom⟩
  match w.fault? with
  | some fault => .error fault
  | none => .ok w

def ofSchemeText (text : String) : Except Fault Weighting :=
  match trimBlanks text with
  | "v1" => .ok v1
  | "v2" => .ok v2
  | other => .error (.unknownScheme other)

end Weighting

end CodeQuality
