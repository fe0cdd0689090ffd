import CodeQuality.Command.Run
import CodeQuality.Proofs.OverallScores

/-!
The quality gate.

A run with a threshold says by its exit code on which side of the threshold the overall score is.
The gate asks only whether the score is below, so a score that is no number passes it; when the
score is no number is read off the profile and the files.
-/

namespace CodeQuality

open Double

/-! ## Reports of accepted projects -/

namespace Profile

/-- Whether the overall score is no number: a sub-score of a counted file is none. -/
def losesOverall (power : Power) (p : Profile) (files : List SourceFile) : Bool :=
  files.length.toUInt64 != 0 && files.any (p.losesScore power)

theorem Accepted.measure_isLost {power : Power} (h : power.NonNegative) {p : Profile}
    (hp : p.Accepted) {f : SourceFile} (hf : f.fault? = none) :
    (p.measure power f).isLost = p.losesScore power f ∧
      (p.losesScore power f = false → (p.measure power f).IsWhole) := by
  obtain ⟨hcomplexity, hduplication, hsize, -⟩ := hp.measure_spec h hf
  have hkept {x : Float} {lost : Bool} (hx : if lost then x.isNaN = true else IsWholeScore x) :
      x.isNaN = lost ∧ (lost = false → IsWholeScore x) := by
    cases lost with
    | true => exact ⟨hx, fun hfalse => Bool.noConfusion hfalse⟩
    | false =>
      obtain ⟨n, -, hn⟩ := isWholeScore_iff.mp hx
      exact ⟨hn.isNaN_eq_false, fun _ => hx⟩
  have h₁ := hkept hcomplexity
  have h₂ := hkept hduplication
  have h₃ := hkept hsize
  constructor
  · unfold FileScore.isLost losesScore
    rw [h₁.1, h₂.1, h₃.1, Bool.or_right_comm]
  · intro hlost
    unfold losesScore at hlost
    rw [Bool.or_eq_false_iff, Bool.or_eq_false_iff] at hlost
    exact ⟨h₁.2 hlost.1.1, h₃.2 hlost.2, h₂.2 hlost.1.2⟩

theorem overall_of_scoreProject {power : Power} (h : power.NonNegative) {p : Profile}
    {files : List SourceFile} {r : Report} (hr : p.scoreProject power files = .ok r) :
    if p.losesOverall power files then r.project.overall.isNaN = true
    else IsScore r.project.overall := by
  obtain ⟨hp, -, hfiles, rfl⟩ := Profile.scoreProject_eq_ok_iff.mp hr
  have hwhole : ∀ f ∈ files.map (p.measure power), f.isLost = false → f.IsWhole := by
    intro score hscore hkept
    obtain ⟨f, hf, rfl⟩ := List.mem_map.mp hscore
    obtain ⟨hlost, himp⟩ := hp.measure_isLost h (hfiles f hf)
    exact himp (hlost ▸ hkept)
  have hoverall := ProjectScore.overall_spec hp.weighting hwhole p.mode
  -- Which files are lost can be told before they are measured.
  have hany : (files.map (p.measure power)).any FileScore.isLost =
      files.any (p.losesScore power) := by
    rw [List.any_map, Bool.eq_iff_iff, List.any_eq_true, List.any_eq_true]
    apply exists_congr
    intro f
    apply and_congr_right
    intro hf
    exact Bool.eq_iff_iff.mp (hp.measure_isLost h (hfiles f hf)).1
  rw [hany, List.length_map] at hoverall
  have hlost : p.losesOverall power files = true ↔
      files.length.toUInt64 ≠ 0 ∧ files.any (p.losesScore power) = true := by
    unfold losesOverall
    rw [Bool.and_eq_true, bne_iff_ne]
  by_cases hcase : p.losesOverall power files = true
  · rw [if_pos (hlost.mp hcase)] at hoverall
    rwa [if_pos hcase]
  · rw [if_neg (mt hlost.mpr hcase)] at hoverall
    rwa [if_neg hcase]

end Profile

/-! ## Runs -/

namespace Outcome

/-- What a failure leaves behind by itself. -/
def ofFailure (log : List LogLine) (failure : Failure) : Outcome :=
  ⟨failureCode failure, "", s!"error: {failure.message}\n", log⟩

theorem ofSteps_of_silent {steps : Console UInt32} {failure : Failure}
    (h : steps.runFrom .empty = (.error failure, .empty)) (log : List LogLine) :
    ofSteps log steps = ofFailure log failure := by
  unfold ofSteps ofFailure
  rw [h]
  simp [Streams.empty]

theorem failureCode_ne (f : Failure) :
    failureCode f ≠ success ∧ failureCode f ≠ belowThreshold := by
  unfold failureCode
  split <;> exact ⟨by decide, by decide⟩

end Outcome

namespace ScoreOptions

/-- The profile and the files that a run scores. -/
def inputs (o : ScoreOptions) (s : Surroundings) : Except Failure (Profile × List SourceFile) := do
  let loaded ← s.settingsFor o.root
  let profile ← o.profile loaded.settings
  let files ← s.readBundle o.input
  return (profile, files)

def report (o : ScoreOptions) (s : Surroundings) : Except Failure Report := do
  let (profile, files) ← o.inputs s
  profile.scoreProject s.power files

/-- All that can fail comes before anything is printed. -/
theorem run_eq (o : ScoreOptions) (s : Surroundings) :
    o.run s = liftM (o.report s) >>= o.print := by
  unfold run runWith report inputs
  cases s.settingsFor o.root with
  | error failure => rfl
  | ok loaded =>
    -- Printing comes last on both sides, however the steps before it are grouped.
    show (liftM (o.profile loaded.settings) >>= _ : Console UInt32) =
      liftM (o.profile loaded.settings >>= _ >>= _) >>= _
    cases o.profile loaded.settings with
    | error failure => rfl
    | ok profile =>
      cases s.readBundle o.input with
      | error failure => rfl
      | ok files => cases profile.scoreProject s.power files <;> rfl

-- Without a report nothing is printed.
theorem runFrom_run (o : ScoreOptions) (s : Surroundings) (printed : Streams) :
    (o.run s).runFrom printed =
      match o.report s with
      | .ok r => (o.print r).runFrom printed
      | .error failure => (.error failure, printed) := by
  rw [run_eq, Console.runFrom_except_bind]
  cases o.report s <;> rfl

/-- The report goes to one stream and the complaint to the other. -/
theorem runFrom_print (o : ScoreOptions) (r : Report) (printed : Streams) :
    (o.print r).runFrom printed =
      let stdout := printed.stdout ++ (r.render o.top o.format ++ "\n")
      match o.complaint? r.project.overall with
      | some complaint =>
        (.ok Outcome.belowThreshold, ⟨stdout, printed.stderr ++ (complaint ++ "\n")⟩)
      | none => (.ok Outcome.success, ⟨stdout, printed.stderr⟩) := by
  unfold print
  rw [Console.runFrom_println_bind]
  cases o.complaint? r.project.overall <;> rfl

/-- What a run leaves behind, by its report. -/
def outcome (o : ScoreOptions) (log : List LogLine) : Except Failure Report → Outcome
  | .error failure => .ofFailure log failure
  | .ok r =>
    let stdout := r.render o.top o.format ++ "\n"
    match o.complaint? r.project.overall with
    | some complaint => ⟨Outcome.belowThreshold, stdout, complaint ++ "\n", log⟩
    | none => ⟨Outcome.success, stdout, "", log⟩

theorem ofSteps_run (o : ScoreOptions) (s : Surroundings) (log : List LogLine) :
    Outcome.ofSteps log (o.run s) = o.outcome log (o.report s) := by
  have hrun := o.runFrom_run s .empty
  cases hreport : o.report s with
  | error failure =>
    rw [hreport] at hrun
    exact Outcome.ofSteps_of_silent hrun log
  | ok r =>
    rw [hreport] at hrun
    unfold Outcome.ofSteps
    rw [hrun.trans (o.runFrom_print r .empty)]
    cases hgate : o.complaint? r.project.overall <;> simp [outcome, hgate, Streams.empty]

-- What is logged is kept apart from the rest of an outcome.
theorem exists_outcome_eq (o : ScoreOptions) (s : Surroundings) (v : Verbosity) :
    ∃ log, Invocation.run s ⟨v, .score o⟩ = o.outcome log (o.report s) :=
  ⟨_, o.ofSteps_run s _⟩

theorem report_eq_ok_iff {o : ScoreOptions} {s : Surroundings} {r : Report} :
    o.report s = .ok r ↔ ∃ p files, o.inputs s = .ok (p, files) ∧
      p.scoreProject s.power files = .ok r := by
  unfold report
  cases o.inputs s with
  | error failure => simp [bind, Except.bind]
  | ok inputs =>
    rcases inputs with ⟨p, files⟩
    simp [bind, Except.bind]

theorem complaint?_eq_none_iff {o : ScoreOptions} {t overall : Float} (h : o.failUnder = some t) :
    o.complaint? overall = none ↔ ¬ overall < t := by
  unfold complaint?
  rw [h]
  dsimp only
  split_ifs with hlt <;> simp [hlt]

end ScoreOptions

/-- With a threshold the exit code of a run that does not fail is the comparison of the overall
score with it. -/
theorem Invocation.exitCode_score {s : Surroundings} {o : ScoreOptions} {t : Float}
    (ho : o.failUnder = some t) (v : Verbosity) :
    ((Invocation.run s ⟨v, .score o⟩).exitCode = Outcome.success ↔
      ∃ r, o.report s = .ok r ∧ ¬ r.project.overall < t) ∧
    ((Invocation.run s ⟨v, .score o⟩).exitCode = Outcome.belowThreshold ↔
      ∃ r, o.report s = .ok r ∧ r.project.overall < t) := by
  obtain ⟨log, hrun⟩ := o.exists_outcome_eq s v
  rw [hrun]
  cases o.report s with
  | error failure =>
    -- Failures have exit codes of their own.
    have hcode := Outcome.failureCode_ne failure
    simp [ScoreOptions.outcome, Outcome.ofFailure, hcode.1, hcode.2]
  | ok r =>
    have hpass : o.complaint? r.project.overall = none ↔ ¬ r.project.overall < t :=
      ScoreOptions.complaint?_eq_none_iff ho
    have hne : Outcome.success ≠ Outcome.belowThreshold := by decide
    cases hgate : o.complaint? r.project.overall with
    | none => simp [ScoreOptions.outcome, hgate, hpass.mp hgate, hne]
    | some complaint =>
      have hlt : r.project.overall < t := by
        by_contra hlt
        rw [hpass.mpr hlt] at hgate
        cases hgate
      simp [ScoreOptions.outcome, hgate, hlt, hne.symm]

-- Of a number one of the two comparisons holds, of what is no number neither does.
theorem IsScore.not_lt_iff {x t : Float} {v : EReal} (hx : IsScore x) (ht : Denotes t v) :
    ¬ x < t ↔ t ≤ x := by
  rcases isNaN_or_denotes x with hnan | ⟨u, hu⟩
  · exact absurd hx.1 (not_le_of_isNaN_right _ hnan)
  · rw [hu.lt_iff ht, ht.le_iff hu, not_lt]

theorem exists_denotes_of_readThreshold {text : String} {t : Float}
    (h : readThreshold text = .ok t) : ∃ a : ℝ, Denotes t a := by
  unfold readThreshold at h
  split at h
  · cases h
  · split_ifs at h with hrange
    obtain rfl := Except.ok.inj h
    rw [Bool.and_eq_true, Bool.and_eq_true] at hrange
    exact exists_denotes_of_isFinite hrange.1.1

/-- A run with a threshold ends with success exactly if it scores a project whose overall score is
on the scale and reaches the threshold, or is no number at all; and it reports a score below the
threshold exactly if there is one. -/
theorem Invocation.exitCode_spec {s : Surroundings} (h : s.power.NonNegative) {o : ScoreOptions}
    {text : String} {t : Float} (ht : readThreshold text = .ok t) (ho : o.failUnder = some t)
    (v : Verbosity) :
    ((Invocation.run s ⟨v, .score o⟩).exitCode = Outcome.success ↔
      ∃ p files r, o.inputs s = .ok (p, files) ∧ p.scoreProject s.power files = .ok r ∧
        if p.losesOverall s.power files then r.project.overall.isNaN = true
        else IsScore r.project.overall ∧ t ≤ r.project.overall) ∧
    ((Invocation.run s ⟨v, .score o⟩).exitCode = Outcome.belowThreshold ↔
      ∃ p files r, o.inputs s = .ok (p, files) ∧ p.scoreProject s.power files = .ok r ∧
        p.losesOverall s.power files = false ∧ r.project.overall < t) := by
  obtain ⟨a, ha⟩ := exists_denotes_of_readThreshold ht
  obtain ⟨hsuccess, hbelow⟩ := Invocation.exitCode_score ho v
  rw [hsuccess, hbelow]
  have hcompare {x : Float} (hx : IsScore x) : ¬ x < t ↔ t ≤ x := hx.not_lt_iff ha
  constructor
  · constructor
    · rintro ⟨r, hr, hkept⟩
      obtain ⟨p, files, hinputs, hscored⟩ := ScoreOptions.report_eq_ok_iff.mp hr
      have hoverall := Profile.overall_of_scoreProject h hscored
      refine ⟨p, files, r, hinputs, hscored, ?_⟩
      split_ifs at hoverall ⊢ with hlost
      · exact hoverall
      · exact ⟨hoverall, (hcompare hoverall).mp hkept⟩
    · rintro ⟨p, files, r, hinputs, hscored, hpass⟩
      refine ⟨r, ScoreOptions.report_eq_ok_iff.mpr ⟨p, files, hinputs, hscored⟩, ?_⟩
      split_ifs at hpass with hlost
      · exact not_lt_of_isNaN_left hpass t
      · exact (hcompare hpass.1).mpr hpass.2
  · constructor
    · rintro ⟨r, hr, hlow⟩
      obtain ⟨p, files, hinputs, hscored⟩ := ScoreOptions.report_eq_ok_iff.mp hr
      have hoverall := Profile.overall_of_scoreProject h hscored
      refine ⟨p, files, r, hinputs, hscored, ?_, hlow⟩
      rw [← Bool.not_eq_true]
      intro hlost
      rw [if_pos hlost] at hoverall
      exact not_lt_of_isNaN_left hoverall t hlow
    · rintro ⟨p, files, r, hinputs, hscored, -, hlow⟩
      exact ⟨r, ScoreOptions.report_eq_ok_iff.mpr ⟨p, files, hinputs, hscored⟩, hlow⟩

/-- A directory whose settings set a complexity curve that overflows in a flat rise, and a bundle
with one file past the last breakpoint. -/
def Surroundings.flatOverflow : Surroundings where
  power := Power.square
  files := fun path =>
    if path = "." then some .directory
    else if path = "./codehealth.toml" then
      some (.file "curves.complexity=[10,20,50,30,70,2,1e-200,2,0]".toUTF8)
    else if path = "b.json" then some (.file "[[[\"a\",[60,0,0]]]]".toUTF8)
    else none
  home := none

def ScoreOptions.strictest : ScoreOptions := ⟨"b.json", none, none, .json, 10, some 100.0⟩

theorem exitCode_flatOverflow :
    (Invocation.run .flatOverflow ⟨⟨false, 0⟩, .score .strictest⟩).exitCode = Outcome.success := by
  decide +kernel

theorem readThreshold_hundred : readThreshold "100" = .ok 100.0 := by
  decide +kernel

theorem Invocation.exitCode_spec_flatOverflow :
    Surroundings.flatOverflow.power.NonNegative ∧ readThreshold "100" = .ok 100.0 ∧
      ScoreOptions.strictest.failUnder = some 100.0 ∧
      ∃ p files r, ScoreOptions.strictest.inputs .flatOverflow = .ok (p, files) ∧
        p.scoreProject Surroundings.flatOverflow.power files = .ok r ∧
        if p.losesOverall Surroundings.flatOverflow.power files then
          r.project.overall.isNaN = true
        else IsScore r.project.overall ∧ 100.0 ≤ r.project.overall := by
  have hpower : Surroundings.flatOverflow.power.NonNegative := Power.monotone_square.nonNegative
  obtain ⟨hsuccess, -⟩ :=
    Invocation.exitCode_spec hpower readThreshold_hundred (o := .strictest) rfl ⟨false, 0⟩
  exact ⟨hpower, readThreshold_hundred, rfl, hsuccess.mp exitCode_flatOverflow⟩

/-- A successful run alone does not tell that the threshold is reached. -/
theorem Invocation.exists_success_isNaN_overall :
    ¬ ∀ (s : Surroundings) (o : ScoreOptions) (text : String) (t : Float) (v : Verbosity),
      s.power.NonNegative → readThreshold text = .ok t → o.failUnder = some t →
      (Invocation.run s ⟨v, .score o⟩).exitCode = Outcome.success →
        ∃ r, o.report s = .ok r ∧ t ≤ r.project.overall := by
  intro hall
  obtain ⟨r, hr, hreached⟩ := hall .flatOverflow .strictest "100" 100.0 ⟨false, 0⟩
    Power.monotone_square.nonNegative readThreshold_hundred rfl exitCode_flatOverflow
  have hnan : (ScoreOptions.strictest.report .flatOverflow).toOption.any
      (·.project.overall.isNaN) = true := by
    decide +kernel
  rw [hr] at hnan
  exact not_le_of_isNaN_right _ hnan hreached

end CodeQuality
