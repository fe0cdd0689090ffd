import CodeQuality.Proofs.Criticism
import CodeQuality.Proofs.FileOrder
import CodeQuality.Proofs.Ranks

/-!
The priority of a file in review.

Among files with distinct paths the rank of a file is the number of files that may stand before it,
itself included. A file that gets riskier is criticised no less, so no file comes to stand before it
that did not before, and the other files stay in the order they have without it.
-/

namespace CodeQuality

open DoubleBits (totalOrderKey_mono)

/-! ## Ranks as numbers of files -/

/-- The rank of the first file with a path. -/
def Report.rank? (r : Report) (path : String) : Option ℕ :=
  (r.ranking.find? (·.path = path)).map RankedFile.rank

section

variable {files : List FileScore} {f : FileScore}

/-- The files around one file in the sorted list: those before it may stand before it, and with
distinct paths none of those after it may. -/
theorem exists_mergeSort_eq (hnodup : (files.map FileScore.path).Nodup) (hf : f ∈ files) :
    ∃ before after, files.mergeSort FileScore.comesFirst = before ++ f :: after ∧
      (∀ g ∈ before, g.path ≠ f.path ∧ g.comesFirst f = true) ∧
      ∀ g ∈ after, ¬ g.comesFirst f = true := by
  have hperm := List.mergeSort_perm files FileScore.comesFirst
  obtain ⟨before, after, hsort⟩ := List.append_of_mem (hperm.mem_iff.mpr hf)
  have hpaths := (hperm.map FileScore.path).nodup_iff.mpr hnodup
  have hsorted := pairwise_comesFirst files
  rw [hsort, List.map_append, List.map_cons, List.nodup_middle, List.nodup_cons] at hpaths
  rw [hsort, List.pairwise_append, List.pairwise_cons] at hsorted
  obtain ⟨-, ⟨hafter, -⟩, hbefore⟩ := hsorted
  have hpath {g : FileScore} (hg : g ∈ before ++ after) : g.path ≠ f.path := by
    intro heq
    rw [← List.map_append] at hpaths
    exact hpaths.1 (List.mem_map.mpr ⟨g, hg, heq⟩)
  refine ⟨before, after, hsort, fun g hg => ⟨?_, hbefore g hg f (List.mem_cons_self ..)⟩, ?_⟩
  · exact hpath (List.mem_append_left after hg)
  · intro g hg hfirst
    exact hpath (List.mem_append_right before hg)
      (FileScore.path_eq_of_comesFirst hfirst (hafter g hg))

theorem Report.rank?_ofScores (p : Profile) (hnodup : (files.map FileScore.path).Nodup)
    (hf : f ∈ files) :
    (Report.ofScores p files).rank? f.path = some (files.countP (·.comesFirst f)) := by
  show ((rankFiles files).find? (·.path = f.path)).map RankedFile.rank = _
  obtain ⟨before, after, hsort, hbefore, hafter⟩ := exists_mergeSort_eq hnodup hf
  have hself : f.comesFirst f = true := FileScore.comesFirst_of_keys_eq rfl
  have hcount : files.countP (·.comesFirst f) = before.length + 1 := by
    have hall : before.countP (·.comesFirst f) = before.length :=
      List.countP_eq_length.mpr fun g hg => (hbefore g hg).2
    have hnone : after.countP (·.comesFirst f) = 0 := List.countP_eq_zero.mpr hafter
    rw [← (List.mergeSort_perm files FileScore.comesFirst).countP_eq, hsort, List.countP_append,
      List.countP_cons, hall, hnone, if_pos hself]
  have hskip : (before.zipIdx.find? fun x => x.1.path = f.path) = none := by
    rw [List.find?_eq_none]
    intro x hx
    simpa using (hbefore x.1 (List.fst_mem_of_mem_zipIdx hx)).1
  have hfind : ((before ++ f :: after).zipIdx.find? fun x => x.1.path = f.path) =
      some (f, before.length) := by
    rw [List.zipIdx_append, List.find?_append, hskip, List.zipIdx_cons,
      List.find?_cons_of_pos (by simp), Option.none_or, Nat.zero_add]
  rw [hcount, rankFiles_eq, hsort, List.find?_map]
  simp only [Function.comp_def, hfind, Option.map_some]

end

/-! ## Riskier files -/

namespace FileScore

variable {f g x : FileScore} {before after : List FileScore}

theorem comesFirst_of_le (hpath : g.path = f.path)
    (hcriticism : f.criticism.totalOrderKey ≤ g.criticism.totalOrderKey)
    (h : x.comesFirst g = true) : x.comesFirst f = true := by
  rw [comesFirst_iff, hpath] at h
  rw [comesFirst_iff]
  rcases h with hlt | ⟨heq, hle⟩
  · exact .inl (hcriticism.trans_lt hlt)
  · rw [← heq] at hcriticism
    exact hcriticism.lt_or_eq.imp id fun heq' => ⟨heq'.symm, hle⟩

/-- No file comes to stand before one that takes the place of another with no more criticism. -/
theorem countP_comesFirst_le (hpath : g.path = f.path)
    (hcriticism : f.criticism.totalOrderKey ≤ g.criticism.totalOrderKey) :
    (before ++ g :: after).countP (·.comesFirst g) ≤
      (before ++ f :: after).countP (·.comesFirst f) := by
  have hothers (files : List FileScore) :
      files.countP (·.comesFirst g) ≤ files.countP (·.comesFirst f) :=
    List.countP_mono_left fun x _ => comesFirst_of_le hpath hcriticism
  have hself (h : FileScore) : h.comesFirst h = true := comesFirst_of_keys_eq rfl
  rw [List.countP_append, List.countP_append, List.countP_cons, List.countP_cons,
    if_pos (hself g), if_pos (hself f)]
  exact Nat.add_le_add (hothers before) (Nat.add_le_add_right (hothers after) 1)

/-- The order of all files but one does not depend on that one. -/
theorem map_entry_filter_ne_rankFiles (hpath : g.path = f.path)
    (hnodup : ((before ++ f :: after).map path).Nodup) :
    ((rankFiles (before ++ g :: after)).filter (·.path ≠ f.path)).map RankedFile.entry =
      ((rankFiles (before ++ f :: after)).filter (·.path ≠ f.path)).map RankedFile.entry := by
  have hpaths : (before ++ g :: after).map path = (before ++ f :: after).map path := by
    rw [List.map_append, List.map_append, List.map_cons, List.map_cons, hpath]
  have hothers : (before ++ g :: after).filter (·.path ≠ f.path) =
      (before ++ f :: after).filter (·.path ≠ f.path) := by
    rw [List.filter_append, List.filter_append, List.filter_cons_of_neg (by simpa using hpath),
      List.filter_cons_of_neg (by simp)]
  have hentries := map_entry_filter_rankFiles fun entry => entry.1 ≠ f.path
  calc ((rankFiles (before ++ g :: after)).filter (·.path ≠ f.path)).map RankedFile.entry
      = (((before ++ g :: after).mergeSort comesFirst).filter (·.path ≠ f.path)).map entry :=
        hentries _
    _ = (((before ++ f :: after).mergeSort comesFirst).filter (·.path ≠ f.path)).map entry := by
        rw [filter_mergeSort (hpaths ▸ hnodup), filter_mergeSort hnodup, hothers]
    _ = ((rankFiles (before ++ f :: after)).filter (·.path ≠ f.path)).map RankedFile.entry :=
        (hentries _).symm

end FileScore

/-! ## Scores and reports -/

theorem Criticism.Weights.validate_eq_ok_iff (w : Criticism.Weights) :
    w.validate = .ok () ↔ w.fault? = none :=
  failIf_eq_ok_iff _ _

namespace Profile

variable {power : Power} {p : Profile} {before after : List SourceFile} {f g : SourceFile}

theorem exists_scoreProject_replace (h : ∃ r, p.scoreProject power (before ++ f :: after) = .ok r)
    (hg : g.validate = .ok ()) (hpath : g.path = f.path) :
    ∃ r, p.scoreProject power (before ++ g :: after) = .ok r := by
  rw [exists_scoreProject_iff] at h ⊢
  obtain ⟨hp, hnodup, hfiles⟩ := h
  refine ⟨hp, ?_, fun x hx => ?_⟩
  · rw [List.map_append, List.map_cons] at hnodup ⊢
    rwa [hpath]
  · rcases List.mem_append.mp hx with hx | hx
    · exact hfiles x (List.mem_append_left _ hx)
    rcases List.mem_cons.mp hx with rfl | hx
    · exact (SourceFile.validate_eq_ok_iff x).mp hg
    · exact hfiles x (List.mem_append_right _ (List.mem_cons_of_mem f hx))

theorem Accepted.withCriticism (hp : p.Accepted) {w : Criticism.Weights} (hw : w.fault? = none) :
    ({ p with criticism := w } : Profile).Accepted :=
  { hp with criticism := hw }

theorem Accepted.criticism_mono (hp : p.Accepted) (power : Power)
    (hrisk : Riskier f.metrics f.coupling g.metrics g.coupling) :
    (p.measure power f).criticism.totalOrderKey ≤ (p.measure power g).criticism.totalOrderKey := by
  have hbase := Criticism.Weights.base_le_score hp.criticism f.metrics f.coupling
  exact totalOrderKey_mono (Double.lt_of_lt_of_le (Criticism.Weights.base_pos hp.criticism) hbase)
    (Criticism.Weights.score_mono hp.criticism hrisk)

/-- A file that gets riskier falls back in no report, and the other files keep their order. -/
theorem scoreProject_replace {r : Report}
    (h : p.scoreProject power (before ++ f :: after) = .ok r) (hg : g.validate = .ok ())
    (hpath : g.path = f.path) (hrisk : Riskier f.metrics f.coupling g.metrics g.coupling) :
    ∃ r', p.scoreProject power (before ++ g :: after) = .ok r' ∧
      (∃ n n', r.rank? f.path = some n ∧ r'.rank? f.path = some n' ∧ n' ≤ n) ∧
      (r'.ranking.filter (·.path ≠ f.path)).map RankedFile.entry =
        (r.ranking.filter (·.path ≠ f.path)).map RankedFile.entry := by
  obtain ⟨hp, hnodup, -⟩ := exists_scoreProject_iff.mp ⟨r, h⟩
  obtain ⟨r', h'⟩ := exists_scoreProject_replace ⟨r, h⟩ hg hpath
  obtain ⟨-, hnodup', -⟩ := exists_scoreProject_iff.mp ⟨r', h'⟩
  obtain ⟨-, -, -, hr⟩ := scoreProject_eq_ok_iff.mp h
  obtain ⟨-, -, -, hr'⟩ := scoreProject_eq_ok_iff.mp h'
  rw [List.map_append, List.map_cons] at hr hr'
  rw [← @map_path_measure power p, List.map_append, List.map_cons] at hnodup hnodup'
  have hself {x : FileScore} {xs ys : List FileScore} : x ∈ xs ++ x :: ys :=
    List.mem_append_right xs (List.mem_cons_self ..)
  have hpath' : (p.measure power g).path = (p.measure power f).path := hpath
  have hrank := Report.rank?_ofScores p hnodup hself
  have hrank' := Report.rank?_ofScores p hnodup' hself
  rw [hr] at hrank
  rw [hr', hpath'] at hrank'
  refine ⟨r', h', ⟨_, _, hrank, hrank',
    FileScore.countP_comesFirst_le hpath' (hp.criticism_mono power hrisk)⟩, ?_⟩
  rw [← hr, ← hr']
  exact FileScore.map_entry_filter_ne_rankFiles hpath' hnodup

end Profile

/-- Criticism is a number above zero that does not fall when a file gets riskier, and in a report
neither does the file, while the other files keep their order. -/
theorem review_priority :
    (∀ w : Criticism.Weights, w.validate = .ok () → 0.0 < w.base ∧ ∀ m c,
      (w.score m c).isNaN = false ∧ w.base ≤ w.score m c ∧
        ∀ m' c', Riskier m c m' c' → w.score m c ≤ w.score m' c') ∧
    ∀ (power : Power) (p : Profile) (before after : List SourceFile) (f g : SourceFile)
      (r : Report), p.scoreProject power (before ++ f :: after) = .ok r → g.validate = .ok () →
      g.path = f.path → Riskier f.metrics f.coupling g.metrics g.coupling →
      ∃ r', p.scoreProject power (before ++ g :: after) = .ok r' ∧
        (∃ n n', r.rank? f.path = some n ∧ r'.rank? f.path = some n' ∧ n' ≤ n) ∧
        (r'.ranking.filter (·.path ≠ f.path)).map RankedFile.entry =
          (r.ranking.filter (·.path ≠ f.path)).map RankedFile.entry := by
  constructor
  · intro w hw
    rw [Criticism.Weights.validate_eq_ok_iff] at hw
    refine ⟨Criticism.Weights.base_pos hw, fun m c => ?_⟩
    have hbase := Criticism.Weights.base_le_score hw m c
    exact ⟨(Double.isNaN_eq_false_of_le hbase).2, hbase,
      fun m' c' hrisk => Criticism.Weights.score_mono hw hrisk⟩
  · intro power p before after f g r h hg hpath hrisk
    exact Profile.scoreProject_replace h hg hpath hrisk

/-- Weights that count complexity for nothing and neighbours beyond every finite score. -/
def steepCriticism : Criticism.Weights :=
  { Criticism.Weights.standard with impactWeight := 1e308, complexityWeight := 0.0 }

def steepProfile : Profile := { Profile.standard with criticism := steepCriticism }

def lonelyFile : SourceFile := ⟨"b.rs", ⟨4, 120, 0.05, 6⟩, [.low], ⟨1, 0, false⟩⟩

def tangledFile : SourceFile := ⟨"b.rs", ⟨12, 640, 0.25, 6⟩, [.low], ⟨9, 3, true⟩⟩

def neighbouringFiles : List SourceFile :=
  [⟨"a.rs", ⟨4, 120, 0.05, 6⟩, [], ⟨1, 0, false⟩⟩,
   ⟨"c.rs", ⟨30, 900, 0.5, 40⟩, [.high], ⟨2, 7, true⟩⟩]

theorem riskier_tangledFile :
    Riskier lonelyFile.metrics lonelyFile.coupling tangledFile.metrics tangledFile.coupling :=
  ⟨by decide, by decide, .inl (by decide), by decide, by decide, fun _ => rfl⟩

theorem review_priority_steep :
    steepCriticism.validate = .ok () ∧
      steepCriticism.score lonelyFile.metrics lonelyFile.coupling ≤
        steepCriticism.score tangledFile.metrics tangledFile.coupling ∧
      ∃ r r', steepProfile.scoreProject Power.square (neighbouringFiles ++ [lonelyFile]) = .ok r ∧
        steepProfile.scoreProject Power.square (neighbouringFiles ++ [tangledFile]) = .ok r' ∧
        (∃ n n', r.rank? "b.rs" = some n ∧ r'.rank? "b.rs" = some n' ∧ n' ≤ n) ∧
        (r'.ranking.filter (·.path ≠ "b.rs")).map RankedFile.entry =
          (r.ranking.filter (·.path ≠ "b.rs")).map RankedFile.entry := by
  have hfault : steepCriticism.fault? = none := by decide +kernel
  have hweights : steepCriticism.validate = .ok () :=
    (Criticism.Weights.validate_eq_ok_iff _).mpr hfault
  have haccepted : steepProfile.Accepted := Profile.accepted_standard.withCriticism hfault
  have hscored : ∃ r,
      steepProfile.scoreProject Power.square (neighbouringFiles ++ [lonelyFile]) = .ok r := by
    refine Profile.exists_scoreProject_iff.mpr ⟨haccepted, by decide, ?_⟩
    intro f hf
    fin_cases hf <;> decide
  obtain ⟨r, hr⟩ := hscored
  obtain ⟨r', hr', hrank, hothers⟩ :=
    review_priority.2 Power.square steepProfile neighbouringFiles [] lonelyFile tangledFile r hr
      rfl rfl riskier_tangledFile
  exact ⟨hweights, ((review_priority.1 _ hweights).2 _ _).2.2 _ _ riskier_tangledFile,
    r, r', hr, hr', hrank, hothers⟩

end CodeQuality
