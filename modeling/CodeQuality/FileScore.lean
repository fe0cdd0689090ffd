import CodeQuality.Number.DoubleBits
import CodeQuality.Profile

/-!
The scores of single files.
-/

namespace CodeQuality

structure FileScore where
  path : String
  complexity : Float
  duplication : Float
  size : Float
  health : Float
  /-- How urgent a review is; positive and without an upper bound. Ranking looks at its bits. -/
  criticism : DoubleBits
  issuePenalty : Float
  escalationPenalty : Float
  flags : UInt32

/-- The health score: what three scores lack of 100 and the two penalties, taken from 100 and
limited to the scale. The subtractions come in this order. -/
def composeHealth (complexity duplication size escalation issues : Float) : Float :=
  clampScore (100.0 - (100.0 - complexity) - escalation - (100.0 - size) - (100.0 - duplication)
    - issues)

/-- A way to score all files of a list, given how one of them is scored. It may look at several
files at a time. -/
abbrev Traversal :=
  (SourceFile → Except Failure FileScore) → List SourceFile → Except Failure (List FileScore)

-- One file after the other, up to the first that is refused.
def Traversal.inOrder : Traversal := fun score files => files.mapM score

namespace Profile

def measure (power : Power) (p : Profile) (f : SourceFile) : FileScore :=
  let complexity := p.curves.complexityScore power f.metrics.complexity
  let duplication := p.curves.duplicationScore power p.mode f.metrics.duplication
  let size := p.curves.sizeScore power f.metrics.lines
  let escalation := p.escalation.penalty power f.metrics.complexity
  let issues := p.severities.penalty f.issues
  { path := f.path
    complexity, duplication, size
    health := composeHealth complexity duplication size escalation issues
    criticism := .ofFloat (p.criticism.score f.metrics f.coupling)
    issuePenalty := issues
    escalationPenalty := escalation
    flags := p.criticism.flags f.metrics }

def scoreValid (power : Power) (p : Profile) (f : SourceFile) : Except Failure FileScore := do
  f.validate
  return p.measure power f

-- The profile is looked at before the file.
def scoreFile (power : Power) (p : Profile) (f : SourceFile) : Except Failure FileScore := do
  p.validate
  p.scoreValid power f

/-- The scores of a list of files in their order, under a profile that is taken to be valid. No
path may occur twice, which is looked at before any file is. -/
def scoreBatchBy (traverse : Traversal) (power : Power) (p : Profile) (files : List SourceFile) :
    Except Failure (List FileScore) := do
  failIf (.file · .repeated) (SourceFile.firstRepeat? [] files)
  traverse (p.scoreValid power) files

def scoreFilesBy (traverse : Traversal) (power : Power) (p : Profile) (files : List SourceFile) :
    Except Failure (List FileScore) := do
  p.validate
  p.scoreBatchBy traverse power files

def scoreFiles (power : Power) (p : Profile) (files : List SourceFile) :
    Except Failure (List FileScore) :=
  p.scoreFilesBy .inOrder power files

end Profile

end CodeQuality
