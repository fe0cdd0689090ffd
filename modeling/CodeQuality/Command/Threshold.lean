import CodeQuality.Number.Binary64
import CodeQuality.Number.Reading
import CodeQuality.Text.Terminal

/-!
The threshold of the quality gate: a score between 0 and 100.
-/

namespace CodeQuality

inductive ThresholdFault where
  | notANumber (text : String)
  | outOfRange (text : String)
  deriving Repr, DecidableEq

def ThresholdFault.message : ThresholdFault → String
  | notANumber text => s!"`{text}` is not a number"
  | outOfRange text => s!"`{text}` must be a score between 0 and 100"

def ThresholdFault.text : ThresholdFault → String
  | notANumber text => text
  | outOfRange text => text

def bold (s : String) : String := "\x1b[1m" ++ s ++ "\x1b[0m"

def ThresholdFault.styledReport (fault : ThresholdFault) : String :=
  bold "error:" ++ " invalid value '" ++ bold fault.text ++ "' for '"
    ++ bold "--fail-under <FAIL_UNDER>" ++ s!"': {fault.message}\n\n"
    ++ "For more information, try '" ++ bold "--help" ++ "'.\n"

-- The report as a plain text. The refused text may hold commands for a terminal too.
def ThresholdFault.report (fault : ThresholdFault) : String := withoutCommands fault.styledReport

def readThreshold (text : String) : Except ThresholdFault Float :=
  match readFloat? text with
  | none => .error (.notANumber text)
  | some x =>
    if x.isFinite && 0.0 ≤ x && x ≤ 100.0 then .ok x else .error (.outOfRange text)

end CodeQuality
