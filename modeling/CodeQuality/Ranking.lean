import CodeQuality.FileScore

/-!
The order in which files want review: the highest criticism score first, files with equal scores
by path.
-/

namespace CodeQuality

/-- A file in the order of review; ranks count from one. -/
structure RankedFile where
  rank : Nat
  path : String
  criticism : DoubleBits
  health : Float

namespace FileScore

/-- Whether `a` may stand before `b`. Scores compare in the order that places every double, paths
by their code points. -/
def comesFirst (a b : FileScore) : Bool :=
  let p := a.criticism.totalOrderKey
  let q := b.criticism.totalOrderKey
  q < p || (p == q && a.path ≤ b.path)

end FileScore

-- Files that are equal in both keys keep their order.
def rankFiles (files : List FileScore) : List RankedFile :=
  (files.mergeSort FileScore.comesFirst).zipIdx.map fun (f, index) =>
    ⟨index + 1, f.path, f.criticism, f.health⟩

theorem length_rankFiles (files : List FileScore) : (rankFiles files).length = files.length := by
  simp [rankFiles]

end CodeQuality
