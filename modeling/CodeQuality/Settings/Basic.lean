import CodeQuality.Profile

/-!
Settings: what a user may set, and the profile that results.
-/

namespace CodeQuality

/-- The mode of a name; a name that is unknown is reported without the blanks around it. -/
def DuplicationMode.ofText (text : String) : Except Failure DuplicationMode :=
  match ofText? text with
  | some mode => .ok mode
  | none => .error (.duplicationMode (trimBlanks text))

def Weighting.ofScheme (text : String) : Except Failure Weighting :=
  (ofSchemeText text).mapError .weighting

/-- All settings, none for those that are left open. -/
structure Settings where
  mode : Option String
  severities : Option Severity.Weights
  scheme : Option String
  /-- Shares of one's own, by the name of the dimension. -/
  shares : Option (List (String × Float))
  criticism : Option Criticism.Weights
  complexity : Option Curve
  size : Option Curve
  duplicationLegacy : Option Curve
  duplicationStrict : Option Curve
  escalation : Option Escalation

namespace Settings

def empty : Settings := ⟨none, none, none, none, none, none, none, none, none, none⟩

instance : Inhabited Settings := ⟨empty⟩

def shareNames : List String := ["complexity", "maintainability", "duplication"]

/-- Shares of one's own. There must be one for each dimension and none for anything else; unknown
names are reported all together in ascending order, before a missing one is. -/
def weightingOfShares (shares : List (String × Float)) : Except Weighting.Fault Weighting := do
  let unknown := (shares.map (·.1)).filter fun name => !shareNames.contains name
  if !unknown.isEmpty then
    throw (.unknownKeys (unknown.mergeSort (· ≤ ·)))
  let share (name : String) : Except Weighting.Fault Float :=
    match shares.lookup name with
    | some x => .ok x
    | none => .error (.missingKey name)
  Weighting.custom
    ⟨← share "complexity", ← share "maintainability", ← share "duplication"⟩

-- The shares that the settings ask for; a scheme and shares of one's own exclude each other.
def weighting (s : Settings) : Except Weighting.Fault Weighting :=
  match s.scheme, s.shares with
  | some _, some _ => .error .schemeAndShares
  | some scheme, none => Weighting.ofSchemeText scheme
  | none, some shares => weightingOfShares shares
  | none, none => .ok default

def duplicationMode (s : Settings) : Except Failure DuplicationMode :=
  match s.mode with
  | none => .ok default
  | some text => DuplicationMode.ofText text

-- A curve that is set replaces the built-in one as a whole.
def curves (s : Settings) : MetricCurves :=
  let builtIn := MetricCurves.standard
  { complexity := s.complexity.getD builtIn.complexity
    size := s.size.getD builtIn.size
    duplicationLegacy := s.duplicationLegacy.getD builtIn.duplicationLegacy
    duplicationStrict := s.duplicationStrict.getD builtIn.duplicationStrict }

/-- The profile that the settings make, if it is a good one. A name that is unknown is found
before a coefficient that is out of range. -/
def resolve (s : Settings) : Except Failure Profile := do
  let mode ← s.duplicationMode
  let weighting ← s.weighting.mapError .weighting
  let profile : Profile :=
    { mode
      curves := s.curves
      escalation := s.escalation.getD default
      severities := s.severities.getD default
      criticism := s.criticism.getD default
      weighting }
  profile.validate
  return profile

def validate (s : Settings) : Except Failure Unit := do
  let _ ← s.resolve

end Settings

end CodeQuality
