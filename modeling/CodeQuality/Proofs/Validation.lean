import CodeQuality.Report

/-!
What it takes to be accepted: the checks of a profile and of a file succeed exactly if no part has
a fault.
-/

namespace CodeQuality

theorem bind_eq_ok_iff {ε α β : Type} {first : Except ε α} {next : α → Except ε β} {result : β} :
    (first >>= next) = .ok result ↔ ∃ a, first = .ok a ∧ next a = .ok result := by
  cases first with
  | error failure => simp [bind, Except.bind]
  | ok a => simp [bind, Except.bind]

theorem andThen_eq_ok_iff {α : Type} {check : Except Failure Unit} {next : Except Failure α}
    {result : α} :
    (check >>= fun _ => next) = .ok result ↔ check = .ok () ∧ next = .ok result := by
  cases check with
  | error failure => simp [bind, Except.bind]
  | ok u => simp [bind, Except.bind]

/-- A profile without a fault in any part. -/
structure Profile.Accepted (p : Profile) : Prop where
  complexity : p.curves.complexity.fault? = none
  size : p.curves.size.fault? = none
  duplication : ∀ mode, (p.curves.duplication mode).fault? = none
  escalation : p.escalation.fault? = none
  severities : p.severities.fault? = none
  criticism : p.criticism.fault? = none
  weighting : p.weighting.fault? = none

theorem Curve.validate_eq_ok_iff (name : String) (c : Curve) :
    c.validate name = .ok () ↔ c.fault? = none :=
  failIf_eq_ok_iff _ _

theorem MetricCurves.validate_eq_ok_iff (c : MetricCurves) :
    c.validate = .ok () ↔ c.complexity.fault? = none ∧ c.size.fault? = none ∧
      ∀ mode, (c.duplication mode).fault? = none := by
  have hmodes : (∀ mode, (c.duplication mode).fault? = none) ↔
      c.duplicationLegacy.fault? = none ∧ c.duplicationStrict.fault? = none := by
    constructor
    · intro h
      exact ⟨h .legacy, h .strict⟩
    · rintro ⟨hlegacy, hstrict⟩ mode
      cases mode
      · exact hlegacy
      · exact hstrict
  have hchain : c.validate = (c.complexity.validate "complexity" >>= fun _ =>
      c.size.validate "size" >>= fun _ =>
      c.duplicationLegacy.validate "duplication_legacy" >>= fun _ =>
      c.duplicationStrict.validate "duplication_strict" >>= fun _ => .ok ()) := rfl
  rw [hchain, hmodes, andThen_eq_ok_iff, andThen_eq_ok_iff, andThen_eq_ok_iff, andThen_eq_ok_iff]
  simp only [Curve.validate_eq_ok_iff, and_true]

theorem Weighting.validate_eq_ok_iff (w : Weighting) : w.validate = .ok () ↔ w.fault? = none :=
  failIf_eq_ok_iff _ _

theorem Profile.validate_eq_ok_iff (p : Profile) : p.validate = .ok () ↔ p.Accepted := by
  have hchain : p.validate = (p.curves.validate >>= fun _ => p.escalation.validate >>= fun _ =>
      p.severities.validate >>= fun _ => p.criticism.validate >>= fun _ =>
      p.weighting.validate) := rfl
  rw [hchain, andThen_eq_ok_iff, andThen_eq_ok_iff, andThen_eq_ok_iff, andThen_eq_ok_iff,
    MetricCurves.validate_eq_ok_iff]
  unfold Escalation.validate Severity.Weights.validate Criticism.Weights.validate
    Weighting.validate
  simp only [failIf_eq_ok_iff]
  constructor
  · rintro ⟨⟨h₁, h₂, h₃⟩, h₄, h₅, h₆, h₇⟩
    exact ⟨h₁, h₂, h₃, h₄, h₅, h₆, h₇⟩
  · intro h
    exact ⟨⟨h.complexity, h.size, h.duplication⟩, h.escalation, h.severities, h.criticism,
      h.weighting⟩

theorem Profile.accepted_standard : Profile.standard.Accepted :=
  (Profile.validate_eq_ok_iff _).mp Profile.validate_standard

theorem Profile.Accepted.withMode {p : Profile} (h : p.Accepted) (mode : DuplicationMode) :
    (p.withMode mode).Accepted :=
  ⟨h.complexity, h.size, h.duplication, h.escalation, h.severities, h.criticism, h.weighting⟩

theorem SourceFile.validate_eq_ok_iff (f : SourceFile) : f.validate = .ok () ↔ f.fault? = none :=
  failIf_eq_ok_iff _ _

theorem Profile.scoreFile_eq_ok_iff {power : Power} {p : Profile} {f : SourceFile}
    {score : FileScore} :
    p.scoreFile power f = .ok score ↔
      p.Accepted ∧ f.fault? = none ∧ p.measure power f = score := by
  have hchain : p.scoreFile power f = (p.validate >>= fun _ => f.validate >>= fun _ =>
      .ok (p.measure power f)) := rfl
  rw [hchain, andThen_eq_ok_iff, andThen_eq_ok_iff, Profile.validate_eq_ok_iff,
    SourceFile.validate_eq_ok_iff, Except.ok.injEq]

theorem Profile.scoreValid_eq_ok_iff {power : Power} {p : Profile} {f : SourceFile}
    {score : FileScore} :
    p.scoreValid power f = .ok score ↔ f.fault? = none ∧ p.measure power f = score := by
  have hchain : p.scoreValid power f = (f.validate >>= fun _ => .ok (p.measure power f)) := rfl
  rw [hchain, andThen_eq_ok_iff, SourceFile.validate_eq_ok_iff, Except.ok.injEq]

theorem Profile.mapM_scoreValid {power : Power} {p : Profile} (files : List SourceFile) :
    ∀ scores : List FileScore, files.mapM (p.scoreValid power) = .ok scores ↔
      (∀ f ∈ files, f.fault? = none) ∧ files.map (p.measure power) = scores := by
  -- The first file with a fault ends the traversal.
  induction files with
  | nil =>
    intro scores
    simp [pure, Except.pure]
  | cons f rest ih =>
    intro scores
    rw [List.mapM_cons]
    cases hf : p.scoreValid power f with
    | error failure =>
      have hfault : f.fault? ≠ none := by
        intro hnone
        rw [Profile.scoreValid_eq_ok_iff.mpr ⟨hnone, rfl⟩] at hf
        cases hf
      simp [bind, Except.bind, hfault]
    | ok score =>
      obtain ⟨hfault, rfl⟩ := Profile.scoreValid_eq_ok_iff.mp hf
      cases hrest : rest.mapM (p.scoreValid power) with
      | error failure =>
        have hbad : ¬ ∀ g ∈ rest, g.fault? = none := by
          intro hall
          rw [(ih _).mpr ⟨hall, rfl⟩] at hrest
          cases hrest
        simp [bind, Except.bind, hfault, hbad]
      | ok tail =>
        obtain ⟨hall, rfl⟩ := (ih tail).mp hrest
        simpa [bind, Except.bind, pure, Except.pure, hfault] using fun _ => hall

/-- A project is scored exactly if its profile and all its files are accepted and no path occurs
twice. -/
theorem Profile.scoreProject_eq_ok_iff {power : Power} {p : Profile} {files : List SourceFile}
    {report : Report} :
    p.scoreProject power files = .ok report ↔
      p.Accepted ∧ SourceFile.firstRepeat? [] files = none ∧ (∀ f ∈ files, f.fault? = none) ∧
        Report.ofScores p (files.map (p.measure power)) = report := by
  have hchain : p.scoreProject power files = (p.validate >>= fun _ =>
      failIf (.file · .repeated) (SourceFile.firstRepeat? [] files) >>= fun _ =>
      files.mapM (p.scoreValid power) >>= fun scores => .ok (Report.ofScores p scores)) := by
    unfold Profile.scoreProject Profile.scoreProjectBy Profile.scoreBatchBy
    cases p.validate <;> cases failIf (.file · .repeated) (SourceFile.firstRepeat? [] files) <;> rfl
  rw [hchain, andThen_eq_ok_iff, andThen_eq_ok_iff, Profile.validate_eq_ok_iff, failIf_eq_ok_iff]
  -- Every list of scores makes a report, so only the files are left to look at.
  cases hscores : files.mapM (p.scoreValid power) with
  | error failure =>
    have hbad : ¬ ∀ f ∈ files, f.fault? = none := by
      intro hall
      rw [(mapM_scoreValid files _).mpr ⟨hall, rfl⟩] at hscores
      cases hscores
    simp [bind, Except.bind, hbad]
  | ok scores =>
    obtain ⟨hall, rfl⟩ := (mapM_scoreValid files scores).mp hscores
    simpa [bind, Except.bind] using fun _ _ _ => hall

end CodeQuality
