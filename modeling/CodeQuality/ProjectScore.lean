import CodeQuality.FileScore

/-!
The score of a project: the mean of each dimension over its files, and their weighted sum.

Files may be counted one by one and counts be merged. The scores of files are whole numbers, so
their sums are exact and the order does not matter.
-/

namespace CodeQuality

structure ProjectScore where
  means : Dimensions
  overall : Float
  fileCount : UInt64
  mode : DuplicationMode
  scheme : Scheme

/-- The number of files so far and the sum of their scores in each dimension. -/
structure Totals where
  count : UInt64
  sums : Dimensions

namespace Totals

def empty : Totals := ⟨0, ⟨0.0, 0.0, 0.0⟩⟩

instance : Inhabited Totals := ⟨empty⟩

def isEmpty (t : Totals) : Bool := t.count == 0

-- Size stands for maintainability.
def push (t : Totals) (f : FileScore) : Totals :=
  ⟨t.count + 1, t.sums.zipWith (· + ·) ⟨f.complexity, f.size, f.duplication⟩⟩

def merge (t u : Totals) : Totals :=
  ⟨t.count + u.count, t.sums.zipWith (· + ·) u.sums⟩

def ofFiles (files : List FileScore) : Totals := files.foldl push empty

/-- The mean of one dimension; a project without files has the full score. -/
def mean (count : UInt64) (sum : Float) : Float :=
  if count == 0 then 100.0 else clampScore (sum / count.toFloat)

def finish (t : Totals) (w : Weighting) (mode : DuplicationMode) : ProjectScore :=
  let means := t.sums.map (mean t.count)
  { means
    overall := clampScore (means.dot w.shares)
    fileCount := t.count
    mode
    scheme := w.scheme }

end Totals

namespace ProjectScore

def ofFiles (files : List FileScore) (w : Weighting) (mode : DuplicationMode) : ProjectScore :=
  (Totals.ofFiles files).finish w mode

structure Change where
  means : Dimensions
  overall : Float

/-- The change since a baseline. Scores under another duplication mode or another weighting do not
compare, and the mode is looked at first. -/
def changeSince (current baseline : ProjectScore) : Except Failure Change :=
  if current.mode ≠ baseline.mode then
    .error (.modeMismatch current.mode baseline.mode)
  else if current.scheme ≠ baseline.scheme then
    .error (.weightingMismatch current.scheme baseline.scheme)
  else
    .ok ⟨current.means.zipWith (· - ·) baseline.means, current.overall - baseline.overall⟩

end ProjectScore

end CodeQuality
