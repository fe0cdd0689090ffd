import CodeQuality.Proofs.Double.TotalOrder
import CodeQuality.Proofs.ReviewOrder
import CodeQuality.Proofs.Text.ByteOrder
import CodeQuality.Report

/-!
The ranks of files.

The ranking is the stable sort by criticism, from the greatest score down in the order that places
every double, and then by the bytes of the path. Ranks count the places of the sorted list.
-/

namespace CodeQuality

open DoubleBits (Precedes totalOrderKey_lt_iff totalOrderKey_inj)

/-! ## Rankings -/

/-- What the order of review looks at. -/
def FileScore.keys (f : FileScore) : DoubleBits × String := (f.criticism, f.path)

def RankedFile.keys (f : RankedFile) : DoubleBits × String := (f.criticism, f.path)

/-- What a ranking shows of a file. -/
def FileScore.entry (f : FileScore) : String × DoubleBits × Float := (f.path, f.criticism, f.health)

def RankedFile.entry (f : RankedFile) : String × DoubleBits × Float :=
  (f.path, f.criticism, f.health)

/-- A list of ranked files is the stable sort of a list of files. -/
structure Ranks (files : List FileScore) (ranked : List RankedFile) : Prop where
  length_eq : ranked.length = files.length
  ranks_eq : ranked.map RankedFile.rank = List.range' 1 files.length
  entries_perm : (ranked.map RankedFile.entry).Perm (files.map FileScore.entry)
  descending : ranked.Pairwise fun a b => Precedes b.criticism a.criticism ∨
    a.criticism = b.criticism ∧ bytes a.path ≤ bytes b.path
  stable : ∀ keys, (ranked.filter (·.keys = keys)).map RankedFile.entry =
    (files.filter (·.keys = keys)).map FileScore.entry

theorem rankFiles_eq (files : List FileScore) :
    rankFiles files = (files.mergeSort FileScore.comesFirst).zipIdx.map fun x =>
      ⟨x.2 + 1, x.1.path, x.1.criticism, x.1.health⟩ := rfl

theorem map_rank_rankFiles (files : List FileScore) :
    (rankFiles files).map RankedFile.rank = List.range' 1 files.length := by
  calc (rankFiles files).map RankedFile.rank
      = ((files.mergeSort FileScore.comesFirst).zipIdx.map Prod.snd).map (1 + ·) := by
        rw [rankFiles_eq, List.map_map, List.map_map]
        exact List.map_congr_left fun x _ => Nat.add_comm x.2 1
    _ = List.range' 1 files.length := by
        rw [List.zipIdx_map_snd, List.map_add_range', List.length_mergeSort]

/-- Without the ranks the ranking is the sorted list. -/
theorem map_rankFiles {α : Type} (shown : RankedFile → α) (given : FileScore → α)
    (h : ∀ f rank, shown ⟨rank, f.path, f.criticism, f.health⟩ = given f) (files : List FileScore) :
    (rankFiles files).map shown = (files.mergeSort FileScore.comesFirst).map given := by
  calc (rankFiles files).map shown
      = ((files.mergeSort FileScore.comesFirst).zipIdx.map Prod.fst).map given := by
        rw [rankFiles_eq, List.map_map, List.map_map]
        exact List.map_congr_left fun x _ => h x.1 (x.2 + 1)
    _ = (files.mergeSort FileScore.comesFirst).map given := by
        rw [List.zipIdx_map_fst]

theorem map_entry_rankFiles (files : List FileScore) :
    (rankFiles files).map RankedFile.entry =
      (files.mergeSort FileScore.comesFirst).map FileScore.entry :=
  map_rankFiles _ _ (fun _ _ => rfl) files

/-- What is picked from the ranking by its entries is picked from the sorted list. -/
theorem map_entry_filter_rankFiles (keep : String × DoubleBits × Float → Bool)
    (files : List FileScore) :
    ((rankFiles files).filter fun r => keep r.entry).map RankedFile.entry =
      ((files.mergeSort FileScore.comesFirst).filter
        fun f => keep f.entry).map FileScore.entry := by
  have hentries := congrArg (List.filter keep) (map_entry_rankFiles files)
  rwa [List.filter_map, List.filter_map] at hentries

theorem FileScore.comesFirst_iff_precedes (a b : FileScore) :
    a.comesFirst b = true ↔ Precedes b.criticism a.criticism ∨
      a.criticism = b.criticism ∧ bytes a.path ≤ bytes b.path := by
  rw [comesFirst_iff, totalOrderKey_lt_iff, totalOrderKey_inj, le_iff_bytes_le]

theorem FileScore.comesFirst_of_keys_eq {a b : FileScore} (h : a.keys = b.keys) :
    a.comesFirst b = true := by
  obtain ⟨hcriticism, hpath⟩ := Prod.mk.inj h
  exact (comesFirst_iff a b).mpr (.inr ⟨congrArg DoubleBits.totalOrderKey hcriticism, hpath.le⟩)

/-- Files that are equal in both keys stand in the order given. -/
theorem filter_mergeSort_comesFirst (files : List FileScore) (keys : DoubleBits × String) :
    (files.mergeSort FileScore.comesFirst).filter (·.keys = keys) =
      files.filter (·.keys = keys) := by
  have hequal : (files.filter (·.keys = keys)).Pairwise fun a b => a.comesFirst b = true := by
    apply List.pairwise_of_forall_mem_list
    intro a ha b hb
    have hkeys : a.keys = keys := of_decide_eq_true (List.mem_filter.mp ha).2
    have hkeys' : b.keys = keys := of_decide_eq_true (List.mem_filter.mp hb).2
    exact FileScore.comesFirst_of_keys_eq (hkeys.trans hkeys'.symm)
  -- The sort keeps every part of the list that is in order already.
  have hsublist : (files.filter (·.keys = keys)).Sublist
      (files.mergeSort FileScore.comesFirst) :=
    List.sublist_mergeSort FileScore.comesFirst_trans FileScore.comesFirst_total hequal
      List.filter_sublist
  have hfilter := hsublist.filter (·.keys = keys)
  rw [List.filter_filter] at hfilter
  simp only [Bool.and_self] at hfilter
  exact (hfilter.eq_of_length ((List.mergeSort_perm files _).filter _).length_eq.symm).symm

theorem ranks_rankFiles (files : List FileScore) : Ranks files (rankFiles files) where
  length_eq := length_rankFiles files
  ranks_eq := map_rank_rankFiles files
  entries_perm := by
    rw [map_entry_rankFiles]
    exact (List.mergeSort_perm files _).map _
  descending := by
    let inOrder (k l : DoubleBits × String) : Prop :=
      Precedes l.1 k.1 ∨ k.1 = l.1 ∧ bytes k.2 ≤ bytes l.2
    have hsorted := pairwise_comesFirst files
    simp only [FileScore.comesFirst_iff_precedes] at hsorted
    have hkeys : ((rankFiles files).map RankedFile.keys).Pairwise inOrder := by
      rw [map_rankFiles RankedFile.keys FileScore.keys fun _ _ => rfl]
      exact List.pairwise_map.mpr hsorted
    exact List.pairwise_map.mp hkeys
  stable := by
    intro keys
    -- The keys of a file can be read off its entry.
    calc ((rankFiles files).filter (·.keys = keys)).map RankedFile.entry
        = ((files.mergeSort FileScore.comesFirst).filter (·.keys = keys)).map FileScore.entry :=
          map_entry_filter_rankFiles (fun entry => (entry.2.1, entry.1) = keys) files
      _ = (files.filter (·.keys = keys)).map FileScore.entry := by
          rw [filter_mergeSort_comesFirst]

/-- The ranking is the stable sort; under distinct paths it depends on nothing but which files
there are; and the top of a report is a first part of it. -/
theorem rankFiles_spec (files : List FileScore) :
    Ranks files (rankFiles files) ∧
      ((files.map FileScore.path).Nodup →
        ∀ listed, listed.Perm files → rankFiles listed = rankFiles files) ∧
      ∀ (r : Report) (k : ℕ), r.ranking = rankFiles files →
        r.top k = (rankFiles files).take (min k files.length) := by
  refine ⟨ranks_rankFiles files, ?_, ?_⟩
  · intro hnodup listed hperm
    exact (rankFiles_perm hperm.symm hnodup).symm
  · intro r k hranking
    rw [Report.top, hranking, List.take_eq_take_min, length_rankFiles]

/-- Files with scores that are no number, of both signs, infinite, and zero of either sign. -/
def extremeScores : List FileScore :=
  [("f.rs", 0x7FF8000000000000), ("c.rs", 0x7FF0000000000001), ("a.rs", 0x7FF0000000000000),
    ("d.rs", 0x8000000000000000), ("g.rs", 0xFFF8000000000000), ("b.rs", 0),
    ("e.rs", 0xFFF0000000000001)].map
    fun (path, bits) => ⟨path, 100.0, 100.0, 100.0, 100.0, ⟨bits⟩, 0.0, 0.0, 0⟩

theorem rankFiles_spec_extremeScores :
    Ranks extremeScores (rankFiles extremeScores) ∧
      rankFiles extremeScores.reverse = rankFiles extremeScores ∧
      ∀ k, (Report.ofScores Profile.standard extremeScores).top k =
        (rankFiles extremeScores).take (min k extremeScores.length) :=
  ⟨(rankFiles_spec extremeScores).1,
    (rankFiles_spec extremeScores).2.1 (by decide) _ (List.reverse_perm _),
    fun k => (rankFiles_spec extremeScores).2.2 _ k rfl⟩

end CodeQuality
