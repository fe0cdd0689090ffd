import CodeQuality.Proofs.Validation
import Mathlib.Data.List.Induction
import Mathlib.Data.List.Nodup
import Mathlib.Tactic.Tauto

/-!
Batches of files.

A batch is looked at in a fixed order: the profile first, then whether a path occurs twice, then
each file by itself. What comes out is what scoring the files one by one gives, whatever way is
taken through them, and only which of several refused files is named is left to that way.
-/

namespace CodeQuality

/-! ## Repeated paths -/

namespace SourceFile

theorem firstRepeat?_eq_none_iff (files : List SourceFile) : ∀ seen : List String,
    firstRepeat? seen files = none ↔
      (files.map SourceFile.path).Nodup ∧ ∀ path ∈ files.map SourceFile.path, path ∉ seen := by
  -- On the files that are left, for all paths seen before them.
  induction files with
  | nil => simp [firstRepeat?]
  | cons f rest ih =>
    intro seen
    rw [firstRepeat?, List.map_cons, List.nodup_cons, List.forall_mem_cons]
    by_cases hseen : f.path ∈ seen
    · simp [hseen]
    · rw [if_neg (by simpa using hseen), ih]
      simp only [List.mem_cons, not_or]
      constructor
      · rintro ⟨hnodup, hfresh⟩
        exact ⟨⟨fun hmem => (hfresh _ hmem).1 rfl, hnodup⟩, hseen,
          fun path hpath => (hfresh path hpath).2⟩
      · rintro ⟨⟨hnew, hnodup⟩, -, hfresh⟩
        exact ⟨hnodup, fun path hpath => ⟨fun heq => hnew (heq ▸ hpath), hfresh path hpath⟩⟩

theorem firstRepeat?_append_cons {f : SourceFile} {after : List SourceFile}
    (before : List SourceFile) : ∀ seen : List String, firstRepeat? seen before = none →
      f.path ∈ before.map SourceFile.path ∨ f.path ∈ seen →
      firstRepeat? seen (before ++ f :: after) = some f.path := by
  induction before with
  | nil =>
    intro seen _ hrepeat
    have hseen : f.path ∈ seen := by simpa using hrepeat
    simp [firstRepeat?, hseen]
  | cons g rest ih =>
    intro seen hnone hrepeat
    rw [firstRepeat?] at hnone
    split at hnone
    next => exact absurd hnone (by simp)
    next hfresh =>
      rw [List.cons_append, firstRepeat?, if_neg hfresh]
      apply ih _ hnone
      rw [List.map_cons, List.mem_cons] at hrepeat
      rw [List.mem_cons]
      tauto

/-- A list in which a path occurs twice has a first file whose path an earlier one has too. -/
theorem exists_firstRepeat {files : List SourceFile} (h : ¬ (files.map SourceFile.path).Nodup) :
    ∃ before f after, files = before ++ f :: after ∧ (before.map SourceFile.path).Nodup ∧
      f.path ∈ before.map SourceFile.path := by
  induction files using List.reverseRecOn with
  | nil => simp at h
  | append_singleton rest f ih =>
    by_cases hrest : (rest.map SourceFile.path).Nodup
    · refine ⟨rest, f, [], rfl, hrest, ?_⟩
      by_contra hnew
      apply h
      rw [List.map_append, List.map_singleton]
      exact hrest.append (List.nodup_singleton _) (by simpa using hnew)
    · obtain ⟨before, g, after, rfl, hnodup, hmem⟩ := ih hrest
      exact ⟨before, g, after ++ [f], by simp, hnodup, hmem⟩

end SourceFile

/-! ## Ways through a batch -/

/-- The scores of all files in their order if every file has one, and otherwise the failure of one
of the files that have none. -/
structure Traversal.Collects (traverse : Traversal) : Prop where
  all : ∀ {score files scores}, files.map score = scores.map .ok → traverse score files = .ok scores
  refused : ∀ {score files}, (∃ f ∈ files, ∃ failure, score f = .error failure) →
    ∃ f ∈ files, ∃ failure, score f = .error failure ∧ traverse score files = .error failure

theorem Traversal.collects_inOrder : Traversal.inOrder.Collects where
  all {score files} := by
    unfold inOrder
    induction files with
    | nil =>
      intro scores h
      obtain rfl : scores = [] := by simpa using h.symm
      rfl
    | cons f rest ih =>
      intro scores h
      cases scores with
      | nil => simp at h
      | cons s tail =>
        rw [List.map_cons, List.map_cons, List.cons.injEq] at h
        rw [List.mapM_cons, h.1, ih h.2]
        rfl
  refused {score files} := by
    unfold inOrder
    induction files with
    | nil => simp
    | cons f rest ih =>
      rintro ⟨g, hg, failure, hfailure⟩
      rw [List.mapM_cons]
      cases hf : score f with
      | error first => exact ⟨f, List.mem_cons_self .., first, hf, rfl⟩
      | ok s =>
        have hrest : g ∈ rest := by
          rcases List.mem_cons.mp hg with rfl | hrest
          · rw [hf] at hfailure
            cases hfailure
          · exact hrest
        obtain ⟨bad, hbad, cause, hcause, htraverse⟩ := ih ⟨g, hrest, failure, hfailure⟩
        refine ⟨bad, List.mem_cons_of_mem f hbad, cause, hcause, ?_⟩
        rw [htraverse]
        rfl

theorem scored_or_refused (score : SourceFile → Except Failure FileScore)
    (files : List SourceFile) :
    (∃ scores : List FileScore, files.map score = scores.map .ok) ∨
      ∃ f ∈ files, ∃ failure, score f = .error failure := by
  induction files with
  | nil => exact .inl ⟨[], rfl⟩
  | cons f rest ih =>
    cases hf : score f with
    | error failure => exact .inr ⟨f, List.mem_cons_self .., failure, hf⟩
    | ok s =>
      rcases ih with ⟨scores, hscores⟩ | ⟨g, hg, hrefused⟩
      · exact .inl ⟨s :: scores, by rw [List.map_cons, List.map_cons, hf, hscores]⟩
      · exact .inr ⟨g, List.mem_cons_of_mem f hg, hrefused⟩

theorem exists_score_of_map_eq {score : SourceFile → Except Failure FileScore}
    {files : List SourceFile} {scores : List FileScore} (h : files.map score = scores.map .ok) :
    ∀ f ∈ files, ∃ s, score f = .ok s := by
  intro f hf
  have hmem : score f ∈ scores.map Except.ok := h ▸ List.mem_map_of_mem hf
  obtain ⟨s, -, hs⟩ := List.mem_map.mp hmem
  exact ⟨s, hs.symm⟩

namespace Traversal.Collects

variable {traverse : Traversal} {score : SourceFile → Except Failure FileScore}
  {files : List SourceFile}

theorem eq_ok_iff (h : traverse.Collects) {scores : List FileScore} :
    traverse score files = .ok scores ↔ files.map score = scores.map .ok := by
  constructor
  · intro hresult
    rcases scored_or_refused score files with ⟨others, hothers⟩ | hrefused
    · rw [h.all hothers] at hresult
      rw [hothers, Except.ok.inj hresult]
    · obtain ⟨-, -, failure, -, herror⟩ := h.refused hrefused
      rw [herror] at hresult
      cases hresult
  · exact h.all

theorem of_eq_error (h : traverse.Collects) {failure : Failure}
    (herror : traverse score files = .error failure) : ∃ f ∈ files, score f = .error failure := by
  rcases scored_or_refused score files with ⟨scores, hscores⟩ | hrefused
  · rw [h.all hscores] at herror
    cases herror
  · obtain ⟨f, hf, cause, hcause, hresult⟩ := h.refused hrefused
    obtain rfl := Except.error.inj (hresult.symm.trans herror)
    exact ⟨f, hf, hcause⟩

end Traversal.Collects

/-! ## Batches -/

namespace Profile

variable {traverse : Traversal} {power : Power} {p : Profile} {files : List SourceFile}

theorem scoreFile_of_validate (h : p.validate = .ok ()) :
    p.scoreFile power = p.scoreValid power := by
  funext f
  unfold scoreFile
  rw [h]
  rfl

theorem scoreValid_eq_error {f : SourceFile} {failure : Failure}
    (h : p.scoreValid power f = .error failure) :
    ∃ fault, f.fault? = some fault ∧ failure = .file f.path fault := by
  unfold scoreValid SourceFile.validate failIf at h
  cases hfault : f.fault? with
  | none =>
    rw [hfault] at h
    cases h
  | some fault =>
    rw [hfault] at h
    exact ⟨fault, rfl, (Except.error.inj h).symm⟩

theorem scoreFilesBy_of_validate (h : p.validate = .ok ()) :
    p.scoreFilesBy traverse power files = p.scoreBatchBy traverse power files := by
  unfold scoreFilesBy
  rw [h]
  rfl

theorem scoreProjectBy_of_validate (h : p.validate = .ok ()) :
    p.scoreProjectBy traverse power files =
      (p.scoreFilesBy traverse power files).map (Report.ofScores p) := by
  rw [scoreFilesBy_of_validate h]
  unfold scoreProjectBy
  rw [h]
  cases p.scoreBatchBy traverse power files <;> rfl

theorem scoreBatchBy_of_repeat (traverse : Traversal) (power : Power) (p : Profile)
    (h : ¬ (files.map SourceFile.path).Nodup) :
    ∃ before f after, files = before ++ f :: after ∧ (before.map SourceFile.path).Nodup ∧
      f.path ∈ before.map SourceFile.path ∧
      p.scoreBatchBy traverse power files = .error (.file f.path .repeated) := by
  obtain ⟨before, f, after, hsplit, hnodup, hmem⟩ := SourceFile.exists_firstRepeat h
  have hnone : SourceFile.firstRepeat? [] before = none :=
    (SourceFile.firstRepeat?_eq_none_iff before []).mpr ⟨hnodup, by simp⟩
  refine ⟨before, f, after, hsplit, hnodup, hmem, ?_⟩
  unfold scoreBatchBy
  rw [hsplit, SourceFile.firstRepeat?_append_cons before [] hnone (.inl hmem)]
  rfl

theorem scoreBatchBy_of_nodup (h : (files.map SourceFile.path).Nodup) :
    p.scoreBatchBy traverse power files = traverse (p.scoreValid power) files := by
  unfold scoreBatchBy
  rw [(SourceFile.firstRepeat?_eq_none_iff files []).mpr ⟨h, by simp⟩]
  rfl

theorem scoreFilesBy_eq_ok_iff (htraverse : traverse.Collects) (h : p.validate = .ok ())
    (hnodup : (files.map SourceFile.path).Nodup) {scores : List FileScore} :
    p.scoreFilesBy traverse power files = .ok scores ↔
      files.map (p.scoreFile power) = scores.map .ok := by
  rw [scoreFilesBy_of_validate h, scoreBatchBy_of_nodup hnodup, htraverse.eq_ok_iff,
    scoreFile_of_validate h]

theorem exists_scoreFilesBy_iff (htraverse : traverse.Collects) (h : p.validate = .ok ())
    (hnodup : (files.map SourceFile.path).Nodup) :
    (∃ scores, p.scoreFilesBy traverse power files = .ok scores) ↔
      ∀ f ∈ files, ∃ score, p.scoreFile power f = .ok score := by
  simp only [scoreFilesBy_eq_ok_iff htraverse h hnodup]
  constructor
  · rintro ⟨scores, hscores⟩
    exact exists_score_of_map_eq hscores
  · intro hall
    rcases scored_or_refused (p.scoreFile power) files with hscored | ⟨f, hf, failure, hfailure⟩
    · exact hscored
    · obtain ⟨score, hscore⟩ := hall f hf
      rw [hscore] at hfailure
      cases hfailure

theorem of_scoreFilesBy_eq_error (htraverse : traverse.Collects) (h : p.validate = .ok ())
    (hnodup : (files.map SourceFile.path).Nodup) {failure : Failure}
    (herror : p.scoreFilesBy traverse power files = .error failure) :
    ∃ f ∈ files, ∃ fault, f.fault? = some fault ∧ failure = .file f.path fault := by
  rw [scoreFilesBy_of_validate h, scoreBatchBy_of_nodup hnodup] at herror
  obtain ⟨f, hf, hrefused⟩ := htraverse.of_eq_error herror
  exact ⟨f, hf, scoreValid_eq_error hrefused⟩

/-- A batch is refused for its profile before anything else, then for the first path that occurs
again, then for a file that is refused by itself; otherwise it has the scores of the single files
in their order, and so has the report on them. -/
theorem scoreFilesBy_spec (htraverse : traverse.Collects) (power : Power) (p : Profile)
    (files : List SourceFile) :
    (∀ failure, p.validate = .error failure →
      (∀ f, p.scoreFile power f = .error failure) ∧
        p.scoreFilesBy traverse power files = .error failure ∧
        p.scoreProjectBy traverse power files = .error failure) ∧
    (p.validate = .ok () → ¬ (files.map SourceFile.path).Nodup →
      ∃ before f after, files = before ++ f :: after ∧ (before.map SourceFile.path).Nodup ∧
        f.path ∈ before.map SourceFile.path ∧
        p.scoreFilesBy traverse power files = .error (.file f.path .repeated) ∧
        p.scoreProjectBy traverse power files = .error (.file f.path .repeated)) ∧
    (p.validate = .ok () → (files.map SourceFile.path).Nodup →
      ((∃ scores, p.scoreFilesBy traverse power files = .ok scores) ↔
        ∀ f ∈ files, ∃ score, p.scoreFile power f = .ok score) ∧
      (∀ scores, p.scoreFilesBy traverse power files = .ok scores →
        files.map (p.scoreFile power) = scores.map .ok ∧
          ∃ r, p.scoreProjectBy traverse power files = .ok r ∧ r.files = scores) ∧
      ∀ failure, p.scoreFilesBy traverse power files = .error failure →
        p.scoreProjectBy traverse power files = .error failure ∧
          ∃ f ∈ files, ∃ fault, f.fault? = some fault ∧ failure = .file f.path fault) := by
  refine ⟨?_, ?_, ?_⟩
  · intro failure h
    unfold scoreFile scoreFilesBy scoreProjectBy
    rw [h]
    exact ⟨fun _ => rfl, rfl, rfl⟩
  · intro h hrepeat
    obtain ⟨before, f, after, hsplit, hnodup, hmem, herror⟩ :=
      scoreBatchBy_of_repeat traverse power p hrepeat
    rw [← scoreFilesBy_of_validate h] at herror
    refine ⟨before, f, after, hsplit, hnodup, hmem, herror, ?_⟩
    rw [scoreProjectBy_of_validate h, herror]
    rfl
  · intro h hnodup
    refine ⟨exists_scoreFilesBy_iff htraverse h hnodup, ?_, ?_⟩
    · intro scores hscores
      refine ⟨(scoreFilesBy_eq_ok_iff htraverse h hnodup).mp hscores, Report.ofScores p scores, ?_,
        rfl⟩
      rw [scoreProjectBy_of_validate h, hscores]
      rfl
    · intro failure herror
      refine ⟨?_, of_scoreFilesBy_eq_error htraverse h hnodup herror⟩
      rw [scoreProjectBy_of_validate h, herror]
      rfl

def plainFile (path : String) : SourceFile := ⟨path, ⟨12, 300, 0.05, 4⟩, [.low], default⟩

theorem scoreFilesBy_spec_inOrder :
    let repeated := [plainFile "a", plainFile " ", plainFile "a"]
    let refused := [plainFile "a", plainFile " "]
    Traversal.inOrder.Collects ∧ Profile.standard.validate = .ok () ∧
      ¬ (repeated.map SourceFile.path).Nodup ∧ (refused.map SourceFile.path).Nodup ∧
      (∃ before f after, repeated = before ++ f :: after ∧
        (before.map SourceFile.path).Nodup ∧ f.path ∈ before.map SourceFile.path ∧
        Profile.standard.scoreFiles Float.pow repeated = .error (.file f.path .repeated) ∧
        Profile.standard.scoreProject Float.pow repeated = .error (.file f.path .repeated)) ∧
      ((∃ scores, Profile.standard.scoreFiles Float.pow refused = .ok scores) ↔
        ∀ f ∈ refused, ∃ score, Profile.standard.scoreFile Float.pow f = .ok score) := by
  intro repeated refused
  have hrepeated : ¬ (repeated.map SourceFile.path).Nodup := by decide
  have hrefused : (refused.map SourceFile.path).Nodup := by decide
  have hspec := scoreFilesBy_spec Traversal.collects_inOrder Float.pow Profile.standard
  exact ⟨Traversal.collects_inOrder, validate_standard, hrepeated, hrefused,
    (hspec repeated).2.1 validate_standard hrepeated,
    ((hspec refused).2.2 validate_standard hrefused).1⟩

end Profile

end CodeQuality
