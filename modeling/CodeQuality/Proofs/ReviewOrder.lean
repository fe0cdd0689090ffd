import CodeQuality.Ranking
import Mathlib.Data.List.Nodup
import Mathlib.Data.String.Basic
import Mathlib.Tactic.Tauto

/-!
The order of review.

Criticism scores compare through a key that places every double, and paths decide between equal
keys. So the comparison is a total order up to the path, and the ranking of files with distinct
paths depends on nothing but which files there are.
-/

namespace CodeQuality

namespace FileScore

theorem comesFirst_iff (a b : FileScore) :
    a.comesFirst b = true ↔ b.criticism.totalOrderKey < a.criticism.totalOrderKey ∨
      a.criticism.totalOrderKey = b.criticism.totalOrderKey ∧ a.path ≤ b.path := by
  simp [comesFirst]

theorem comesFirst_trans (a b c : FileScore) (hab : a.comesFirst b = true)
    (hbc : b.comesFirst c = true) : a.comesFirst c = true := by
  rw [comesFirst_iff] at hab hbc ⊢
  rcases hab with hab | ⟨hab, hpath⟩
  · left
    rcases hbc with hbc | ⟨hbc, -⟩ <;> omega
  · rcases hbc with hbc | ⟨hbc, hpath'⟩
    · left
      omega
    · exact .inr ⟨hab.trans hbc, hpath.trans hpath'⟩

theorem comesFirst_total (a b : FileScore) : (a.comesFirst b || b.comesFirst a) = true := by
  rw [Bool.or_eq_true, comesFirst_iff, comesFirst_iff]
  rcases lt_trichotomy (a.criticism.totalOrderKey) (b.criticism.totalOrderKey) with h | h | h
  · exact .inr (.inl h)
  · rcases le_total a.path b.path with hpath | hpath
    · exact .inl (.inr ⟨h, hpath⟩)
    · exact .inr (.inr ⟨h.symm, hpath⟩)
  · exact .inl (.inl h)

/-- Two files that may stand before each other have the same path. -/
theorem path_eq_of_comesFirst {a b : FileScore} (hab : a.comesFirst b = true)
    (hba : b.comesFirst a = true) : a.path = b.path := by
  rw [comesFirst_iff] at hab hba
  rcases hab with hab | ⟨hab, hpath⟩
  · omega
  · rcases hba with hba | ⟨-, hpath'⟩
    · omega
    · exact le_antisymm hpath hpath'

end FileScore

theorem pairwise_comesFirst (files : List FileScore) :
    (files.mergeSort FileScore.comesFirst).Pairwise fun a b => a.comesFirst b = true :=
  List.pairwise_mergeSort FileScore.comesFirst_trans FileScore.comesFirst_total files

/-- A sorted list of files with distinct paths is determined by its members, since no two of them
are equal in the order. -/
theorem eq_of_pairwise_comesFirst {as bs : List FileScore} (hperm : as.Perm bs)
    (hnodup : (as.map FileScore.path).Nodup)
    (has : as.Pairwise fun a b => a.comesFirst b = true)
    (hbs : bs.Pairwise fun a b => a.comesFirst b = true) : as = bs := by
  refine hperm.eq_of_pairwise ?_ has hbs
  intro a b ha hb hab hba
  exact List.inj_on_of_nodup_map hnodup ha (hperm.mem_iff.mpr hb)
    (FileScore.path_eq_of_comesFirst hab hba)

/-- Files with distinct paths rank in the same order, however they are listed. -/
theorem rankFiles_perm {as bs : List FileScore} (h : as.Perm bs)
    (hnodup : (as.map FileScore.path).Nodup) : rankFiles as = rankFiles bs := by
  have has := List.mergeSort_perm as FileScore.comesFirst
  have hsort : (as.mergeSort FileScore.comesFirst).Perm (bs.mergeSort FileScore.comesFirst) :=
    has.trans (h.trans (List.mergeSort_perm bs _).symm)
  have hnodup' := (has.map FileScore.path).nodup_iff.mpr hnodup
  unfold rankFiles
  rw [eq_of_pairwise_comesFirst hsort hnodup' (pairwise_comesFirst as) (pairwise_comesFirst bs)]

/-- Leaving files out before or after the sort is the same. -/
theorem filter_mergeSort {files : List FileScore} (hnodup : (files.map FileScore.path).Nodup)
    (keep : FileScore → Bool) :
    (files.mergeSort FileScore.comesFirst).filter keep =
      (files.filter keep).mergeSort FileScore.comesFirst := by
  have hsort := List.mergeSort_perm files FileScore.comesFirst
  have hnodup' := (hsort.map FileScore.path).nodup_iff.mpr hnodup
  apply eq_of_pairwise_comesFirst
  · exact (hsort.filter keep).trans (List.mergeSort_perm _ _).symm
  · exact hnodup'.sublist (List.filter_sublist.map _)
  · exact (pairwise_comesFirst files).filter keep
  · exact pairwise_comesFirst _

end CodeQuality
