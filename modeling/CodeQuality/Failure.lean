import CodeQuality.Criticism
import CodeQuality.Curve
import CodeQuality.Duplication
import CodeQuality.Number.FixedPlaces
import CodeQuality.Number.NumberStyle
import CodeQuality.Weighting

/-!
All that can go wrong, as causes, and the one text that each cause has.
-/

namespace CodeQuality

/-- Why a settings file, or all of them laid over one another, cannot be used. -/
inductive LayerFault where
  /-- The file is no settings text, or does not fit the schema. -/
  | unfit (path : String)
  /-- An array in the merged settings has more items than the section at `keys` has fields. -/
  | surplus (length : Nat) (keys : List String)
  /-- The merged settings do not fit the schema. -/
  | unfitTogether

inductive ReadFault where
  | notUtf8
  | directory
  /-- Any other reason, in the words of the system. -/
  | system (reason : String)
  deriving Repr, DecidableEq

inductive Failure where
  | file (path : String) (fault : SourceFile.Fault)
  | duplicationMode (text : String)
  | weighting (fault : Weighting.Fault)
  | curve (name : String) (fault : Curve.Fault)
  | severityWeight (severity : Severity) (found : Float)
  | criticism (fault : Criticism.Weights.Fault)
  | layer (fault : LayerFault)
  | modeMismatch (left right : DuplicationMode)
  | weightingMismatch (left right : Scheme)
  | noSuchPath (path : String)
  | unreadable (fault : ReadFault)
  | bundle

def shown (x : Float) : String := NumberStyle.message.text x

def SourceFile.Fault.message : SourceFile.Fault → String
  | blankPath => "file path must not be empty"
  | duplicationOutOfRange found =>
    s!"duplication_ratio must be within [0, 1] (found {shown found})"
  | repeated => "file appears more than once in the input"

def Curve.Fault.message : Curve.Fault → String
  | notFinite => "all coefficients must be finite"
  | negativeStart => "excellent_max must not be negative"
  | descendingBreakpoints first second third =>
    s!"breakpoints must ascend (found {shown first} / {shown second} / {shown third})"
  | descendingPenalties => "penalties must satisfy 0 <= linear_penalty <= quadratic_penalty"
  | jumpInEmptyLine => "linear_penalty must be 0 when the linear phase is empty"
  | jumpInEmptyPower =>
    "quadratic_penalty must equal linear_penalty when the quadratic phase is empty"
  | exponentNotPositive => "exponents must be positive"
  | spanNotPositive => "exponential_span must be positive"
  | negativeScale => "exponential_scale must not be negative"
  | escalation => "threshold and scale must be non-negative, span and exponent positive"

def Weighting.Fault.message : Weighting.Fault → String
  | shareOutOfRange => "each weight must be between 0.0 and 1.0"
  | wrongSum sum => s!"weights must sum to 1.0 (found {fixedPlaces 3 sum})"
  | unknownScheme name => s!"unknown aggregation scheme: {name} (expected \"v1\" or \"v2\")"
  | schemeAndShares => "aggregation.scheme and aggregation.weights cannot both be set"
  | unknownKeys keys =>
    "aggregation.weights contains unknown key(s): " ++ ", ".intercalate keys
  | missingKey key => s!"aggregation.weights.{key} is missing"

def Criticism.Weights.Fault.message : Criticism.Weights.Fault → String
  | negativeWeight name found =>
    s!"criticism.{name} must be a non-negative number (found {shown found})"
  | baseNotPositive found => s!"criticism.base must be positive (found {shown found})"
  | duplicationThreshold found =>
    s!"criticism.duplication_threshold must be between 0.0 and 1.0 (found {shown found})"

-- The text ends where the reason begins that the file itself gives.
def LayerFault.message : LayerFault → String
  | unfit path => path
  | surplus length keys =>
    s!"invalid length {length}, expected fewer elements in array\nin `"
      ++ ".".intercalate keys ++ "`\n"
  | unfitTogether => ""

def ReadFault.message : ReadFault → String
  | notUtf8 => "stream did not contain valid UTF-8"
  | directory => "Is a directory (os error 21)"
  | system reason => reason

namespace Failure

def message : Failure → String
  | file path fault => s!"invalid metric for {path}: {fault.message}"
  | duplicationMode text =>
    s!"unknown duplication mode: {text} (expected \"legacy\" or \"strict\")"
  | weighting fault => s!"invalid aggregation weights: {fault.message}"
  | curve name fault => s!"invalid {name} curve: {fault.message}"
  | severityWeight severity found =>
    "config parse error: issues.weights." ++ severity.name
      ++ s!" must be a non-negative number (found {shown found})"
  | criticism fault => s!"config parse error: {fault.message}"
  | layer fault => s!"config parse error: {fault.message}"
  | modeMismatch left right =>
    s!"cannot compare scores computed under duplication modes {left.name} and {right.name}"
  | weightingMismatch left right =>
    s!"cannot compare scores computed under weightings {left.name} and {right.name}"
  | noSuchPath path => s!"path does not exist: {path}"
  | unreadable fault => s!"io error: {fault.message}"
  | bundle => "invalid metrics bundle: "

/-- Whether the cause is what the caller handed in; otherwise it is the machine's. -/
def isValidation : Failure → Bool
  | noSuchPath _ | unreadable _ => false
  | _ => true

end Failure

end CodeQuality
