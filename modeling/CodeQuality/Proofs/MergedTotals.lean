import CodeQuality.ProjectScore
import CodeQuality.Proofs.Scores

/-!
Totals of whole scores.

Scores are whole numbers up to 100, so as long as there are not too many of them their sums are
exact. Exact totals depend on nothing but the multiset of files, hence neither on the order in
which files are counted nor on how counts are merged.
-/

namespace CodeQuality

open Double

/-! ## Exact sums -/

/-- The whole number that a whole score denotes. -/
noncomputable def points (x : Float) : ℕ := ⌊(value x.toModel.unpack).toReal⌋₊

theorem points_of_denotes {x : Float} {n : ℕ} (h : Denotes x (n : ℝ)) : points x = n := by
  unfold points
  rw [h.value_eq, EReal.toReal_coe, Nat.floor_natCast]

theorem IsWholeScore.denotes_points {x : Float} (h : IsWholeScore x) :
    Denotes x (points x : ℝ) ∧ points x ≤ 100 := by
  obtain ⟨n, hn, hx⟩ := isWholeScore_iff.mp h
  rw [points_of_denotes hx]
  exact ⟨hx, hn⟩

noncomputable def pointSum (score : FileScore → Float) (files : List FileScore) : ℕ :=
  (files.map fun f => points (score f)).sum

theorem pointSum_append (score : FileScore → Float) (as bs : List FileScore) :
    pointSum score (as ++ bs) = pointSum score as + pointSum score bs := by
  unfold pointSum
  rw [List.map_append, List.sum_append]

theorem pointSum_perm {score : FileScore → Float} {as bs : List FileScore} (h : as.Perm bs) :
    pointSum score as = pointSum score bs :=
  (h.map _).sum_eq

theorem pointSum_le {score : FileScore → Float} {files : List FileScore}
    (h : ∀ f ∈ files, IsWholeScore (score f)) : pointSum score files ≤ 100 * files.length := by
  induction files with
  | nil => exact Nat.le_refl _
  | cons f rest ih =>
    have hhead := (h f (List.mem_cons_self ..)).denotes_points.2
    have htail := ih fun g hg => h g (List.mem_cons_of_mem f hg)
    have hsum : pointSum score (f :: rest) = points (score f) + pointSum score rest := rfl
    rw [hsum, List.length_cons]
    omega

/-! ## Exact totals -/

namespace Totals

/-- The totals that files have if no sum is rounded. -/
noncomputable def exact (files : List FileScore) : Totals :=
  ⟨files.length.toUInt64, ⟨wholeFloat (pointSum FileScore.complexity files),
    wholeFloat (pointSum FileScore.size files), wholeFloat (pointSum FileScore.duplication files)⟩⟩

theorem exact_perm {as bs : List FileScore} (h : as.Perm bs) : exact as = exact bs := by
  unfold exact
  rw [h.length_eq, pointSum_perm h, pointSum_perm h, pointSum_perm h]

theorem empty_eq_exact : empty = exact [] := by
  unfold empty exact
  rw [zero_eq_wholeFloat]
  rfl

theorem wholeFloat_pointSum_append {score : FileScore → Float} {as bs : List FileScore}
    (h : ∀ f ∈ as ++ bs, IsWholeScore (score f)) (hlength : 100 * (as ++ bs).length ≤ 2 ^ 53) :
    wholeFloat (pointSum score as) + wholeFloat (pointSum score bs) =
      wholeFloat (pointSum score (as ++ bs)) := by
  -- The sum of all points bounds both partial sums.
  have hle := pointSum_le h
  rw [pointSum_append] at hle ⊢
  exact wholeFloat_add (denotes_wholeFloat (by omega)) (by omega)

theorem wholeFloat_pointSum_push {score : FileScore → Float} {files : List FileScore}
    {f : FileScore} (h : ∀ g ∈ files ++ [f], IsWholeScore (score g))
    (hlength : 100 * (files ++ [f]).length ≤ 2 ^ 53) :
    wholeFloat (pointSum score files) + score f = wholeFloat (pointSum score (files ++ [f])) := by
  have hle := pointSum_le h
  have hlast : pointSum score [f] = points (score f) := by simp [pointSum]
  have hf := (h f (List.mem_append_right _ (List.mem_singleton_self f))).denotes_points.1
  rw [pointSum_append, hlast] at hle ⊢
  exact wholeFloat_add hf (by omega)

theorem push_exact {files : List FileScore} {f : FileScore}
    (h : ∀ g ∈ files ++ [f], g.IsWhole) (hlength : 100 * (files ++ [f]).length ≤ 2 ^ 53) :
    (exact files).push f = exact (files ++ [f]) := by
  have hcount : files.length.toUInt64 + 1 = (files ++ [f]).length.toUInt64 := by
    rw [List.length_append]
    exact (UInt64.ofNat_add _ _).symm
  unfold exact push
  rw [← hcount, ← wholeFloat_pointSum_push (fun g hg => (h g hg).complexity) hlength,
    ← wholeFloat_pointSum_push (fun g hg => (h g hg).size) hlength,
    ← wholeFloat_pointSum_push (fun g hg => (h g hg).duplication) hlength]
  rfl

theorem merge_exact {as bs : List FileScore} (h : ∀ g ∈ as ++ bs, g.IsWhole)
    (hlength : 100 * (as ++ bs).length ≤ 2 ^ 53) :
    (exact as).merge (exact bs) = exact (as ++ bs) := by
  have hcount : as.length.toUInt64 + bs.length.toUInt64 = (as ++ bs).length.toUInt64 := by
    rw [List.length_append]
    exact (UInt64.ofNat_add _ _).symm
  unfold exact merge
  rw [← hcount, ← wholeFloat_pointSum_append (fun g hg => (h g hg).complexity) hlength,
    ← wholeFloat_pointSum_append (fun g hg => (h g hg).size) hlength,
    ← wholeFloat_pointSum_append (fun g hg => (h g hg).duplication) hlength]
  rfl

theorem foldl_push_exact (files : List FileScore) : ∀ before : List FileScore,
    (∀ g ∈ before ++ files, g.IsWhole) → 100 * (before ++ files).length ≤ 2 ^ 53 →
      files.foldl push (exact before) = exact (before ++ files) := by
  -- On the files still to count, for every list of files counted before.
  induction files with
  | nil =>
    intro before _ _
    rw [List.append_nil]
    rfl
  | cons f rest ih =>
    intro before h hlength
    have hsplit : before ++ f :: rest = (before ++ [f]) ++ rest := by
      rw [List.append_assoc, List.singleton_append]
    rw [hsplit] at h hlength ⊢
    have hprefix : 100 * (before ++ [f]).length ≤ 2 ^ 53 := by
      rw [List.length_append] at hlength
      omega
    rw [List.foldl_cons, push_exact (fun g hg => h g (List.mem_append_left _ hg)) hprefix]
    exact ih (before ++ [f]) h hlength

theorem ofFiles_eq_exact {files : List FileScore} (h : ∀ f ∈ files, f.IsWhole)
    (hlength : 100 * files.length ≤ 2 ^ 53) : ofFiles files = exact files := by
  unfold ofFiles
  rw [empty_eq_exact]
  exact foldl_push_exact files [] h hlength

end Totals

/-! ## Ways to count -/

/-- A way to come by totals: files are counted one by one, and totals are merged. -/
inductive Tally where
  | empty
  | push (t : Tally) (f : FileScore)
  | merge (t u : Tally)

namespace Tally

def totals : Tally → Totals
  | empty => .empty
  | push t f => t.totals.push f
  | merge t u => t.totals.merge u.totals

/-- The files counted, from left to right. -/
def files : Tally → List FileScore
  | empty => []
  | push t f => t.files ++ [f]
  | merge t u => t.files ++ u.files

theorem totals_eq_exact (t : Tally) (h : ∀ f ∈ t.files, f.IsWhole)
    (hlength : 100 * t.files.length ≤ 2 ^ 53) : t.totals = .exact t.files := by
  -- The bound on the number of files passes to the parts of a tally, and exactness back up.
  induction t with
  | empty => exact Totals.empty_eq_exact
  | push t f ih =>
    have hbefore : 100 * t.files.length ≤ 2 ^ 53 := by
      unfold files at hlength
      rw [List.length_append] at hlength
      omega
    have ht := ih (fun g hg => h g (List.mem_append_left _ hg)) hbefore
    unfold totals
    rw [ht]
    exact Totals.push_exact h hlength
  | merge t u iht ihu =>
    have hlengths : 100 * t.files.length ≤ 2 ^ 53 ∧ 100 * u.files.length ≤ 2 ^ 53 := by
      unfold files at hlength
      rw [List.length_append] at hlength
      omega
    have ht := iht (fun g hg => h g (List.mem_append_left _ hg)) hlengths.1
    have hu := ihu (fun g hg => h g (List.mem_append_right _ hg)) hlengths.2
    unfold totals
    rw [ht, hu]
    exact Totals.merge_exact h hlength

/-- However whole scores are counted and merged, the totals count every file and finish as the
batch does. -/
theorem finish_eq_ofFiles {t : Tally} {files : List FileScore} (hperm : t.files.Perm files)
    (h : ∀ f ∈ files, f.IsWhole) (hlength : 100 * files.length ≤ 2 ^ 53) (w : Weighting)
    (mode : DuplicationMode) :
    t.totals.count.toNat = files.length ∧
      t.totals.finish w mode = ProjectScore.ofFiles files w mode := by
  have htotals : t.totals = .exact files := by
    rw [totals_eq_exact t (fun f hf => h f (hperm.mem_iff.mp hf)) (hperm.length_eq ▸ hlength)]
    exact Totals.exact_perm hperm
  rw [htotals]
  -- With fewer than `2 ^ 53` files the count does not wrap around.
  refine ⟨Nat.mod_eq_of_lt (by omega), ?_⟩
  unfold ProjectScore.ofFiles
  rw [Totals.ofFiles_eq_exact h hlength]

/-- A score of 30, 100 and 70 in the three dimensions. -/
def sampleScore (path : String) : FileScore :=
  ⟨path, 30.0, 70.0, 100.0, 0.0, .ofFloat 1.0, 0.0, 0.0, 0⟩

theorem isWhole_sampleScore (path : String) : (sampleScore path).IsWhole := by
  have hcomplexity : IsWholeScore 30.0 := ⟨30, by decide, by decide⟩
  have hsize : IsWholeScore 100.0 := ⟨100, by decide, by decide⟩
  have hduplication : IsWholeScore 70.0 := ⟨70, by decide, by decide⟩
  exact ⟨hcomplexity, hsize, hduplication⟩

theorem finish_eq_ofFiles_merged :
    let files := [sampleScore "a", sampleScore "b", sampleScore "c"]
    let tally := merge (push (merge empty (push empty (sampleScore "c"))) (sampleScore "a"))
      (merge (push empty (sampleScore "b")) empty)
    tally.totals.count.toNat = 3 ∧
      tally.totals.finish .v2 .strict = ProjectScore.ofFiles files .v2 .strict := by
  intro files tally
  have hperm : tally.files.Perm files := by
    show ([sampleScore "c"] ++ [sampleScore "a", sampleScore "b"]).Perm
      ([sampleScore "a", sampleScore "b"] ++ [sampleScore "c"])
    exact List.perm_append_comm
  have hwhole : ∀ f ∈ files, f.IsWhole := by
    intro f hf
    obtain ⟨path, rfl⟩ : ∃ path, f = sampleScore path := by
      rcases List.mem_cons.mp hf with rfl | hf
      · exact ⟨_, rfl⟩
      rcases List.mem_cons.mp hf with rfl | hf
      · exact ⟨_, rfl⟩
      exact ⟨_, List.mem_singleton.mp hf⟩
    exact isWhole_sampleScore path
  exact finish_eq_ofFiles hperm hwhole (by decide) .v2 .strict

end Tally

end CodeQuality
