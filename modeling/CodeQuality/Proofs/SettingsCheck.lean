import CodeQuality.Proofs.RunFailures

/-!
Checking the settings of a directory by themselves.

Checking looks at what a run with this directory looks at first, and in the same order. So where
checking fails every run fails in the same way, and where it succeeds a run can only fail over its
bundle or the files in it.
-/

namespace CodeQuality

open ScoreOptions

theorem LoadedSettings.exists_runFrom_print (loaded : LoadedSettings) (p : Profile)
    (printed : Streams) :
    ∃ after, (loaded.print p).runFrom printed = (.ok Outcome.success, after) := by
  obtain ⟨after, hlayers⟩ := Console.runFrom_forM_println
    (fun layer : Layer => s!"layer {layer.kind.name}: {layer.path}") loaded.layers printed
  unfold print
  rw [Console.runFrom_bind, hlayers]
  exact ⟨_, rfl⟩

/-- Checking prints nothing unless the settings make a profile, and then it succeeds. -/
theorem runFrom_checkConfig (s : Surroundings) (directory : String) (printed : Streams) :
    (∀ failure, s.profileOf directory = .error failure →
      (checkConfig s directory).runFrom printed = (.error failure, printed)) ∧
    ∀ p, s.profileOf directory = .ok p →
      ∃ after, (checkConfig s directory).runFrom printed = (.ok Outcome.success, after) := by
  unfold checkConfig Surroundings.profileOf
  rw [Console.runFrom_except_bind]
  cases s.settingsFor directory with
  | error cause =>
    refine ⟨fun failure h => ?_, fun p h => ?_⟩
    · cases h
      rfl
    · cases h
  | ok loaded =>
    simp only [bind, Except.bind]
    cases loaded.settings.resolve with
    | error cause =>
      refine ⟨fun failure h => ?_, fun p h => ?_⟩
      · cases h
        rfl
      · cases h
    | ok p =>
      refine ⟨fun failure h => ?_, fun _ _ => ?_⟩
      · cases h
      · exact loaded.exists_runFrom_print p printed

theorem result_checkConfig_eq_error_iff {s : Surroundings} {directory : String}
    {failure : Failure} :
    (checkConfig s directory).result = .error failure ↔ s.profileOf directory = .error failure := by
  obtain ⟨herror, hok⟩ := runFrom_checkConfig s directory .empty
  unfold Console.result
  cases hprofile : s.profileOf directory with
  | error cause => simp [herror cause hprofile]
  | ok p =>
    obtain ⟨after, hafter⟩ := hok p hprofile
    rw [hafter]
    simp

/-- A run whose settings make a profile can only fail over its bundle. -/
theorem ScoreOptions.of_report_eq_error {o : ScoreOptions} {s : Surroundings} {p : Profile}
    (hp : s.profileOf o.root = .ok p) {failure : Failure} (h : o.report s = .error failure) :
    failure = .noSuchPath o.input ∧ s.files.hasPath o.input = false ∨
      (∃ fault, failure = .unreadable fault ∧ s.files.readText o.input = .error failure) ∨
      failure = .bundle ∨ ∃ path fault, failure = .file path fault := by
  have hsettings : ∀ check ∈ Check.ofSettings, o.Passes s check := by
    rcases o.profileOf_cases s with ⟨-, -, -, -, -, hpass⟩ | ⟨cause, hcause, -⟩
    · exact hpass
    · rw [hp] at hcause
      cases hcause
  have hfirst : o.FirstFailure s Check.all failure := by
    rcases o.report_cases s with
      ⟨_, _, _, _, _, -, -, -, -, -, hreport, -⟩ | ⟨cause, hcause, hfirst⟩
    · rw [hreport] at h
      cases h
    · rw [hcause] at h
      cases h
      exact hfirst
  obtain ⟨check, -, hfails⟩ := hfirst.exists_fails
  have hlater (hmem : check ∈ Check.ofSettings) : False := hsettings check hmem failure hfails
  cases hfails with
  | directory | layers | settings => exact absurd (by simp [Check.ofSettings]) hlater
  | bundlePath hmissing => exact .inl ⟨rfl, hmissing⟩
  | bundleText hread => exact .inr (.inl ⟨_, rfl, hread⟩)
  | bundleShape => exact .inr (.inr (.inl rfl))
  | distinctPaths | files => exact .inr (.inr (.inr ⟨_, _, rfl⟩))

/-- Where checking a directory fails, every run with this directory ends in the same way. Where it
succeeds, no run with this directory fails over its settings: either the bundle is missing, cannot
be read or makes no sense, or a file in it is refused. -/
theorem checkConfig_run (s : Surroundings) (directory : String) (o : ScoreOptions)
    (v v' : Verbosity) :
    let o' := { o with configDir := some directory }
    let checked := Invocation.run s ⟨v, .checkConfig directory⟩
    let scored := Invocation.run s ⟨v', .score o'⟩
    (∀ failure, (checkConfig s directory).result = .error failure →
      (o'.run s).result = .error failure ∧ scored.exitCode = checked.exitCode ∧
        scored.stderr = checked.stderr ∧ scored.stdout = checked.stdout) ∧
    (checked.exitCode = 0 → ∀ failure, (o'.run s).result = .error failure →
      failure = .noSuchPath o.input ∧ s.files.hasPath o.input = false ∨
        (∃ fault, failure = .unreadable fault ∧ s.files.readText o.input = .error failure) ∨
        failure = .bundle ∨ ∃ path fault, failure = .file path fault) := by
  intro o' checked scored
  have hchecked {failure : Failure} (hprofile : s.profileOf directory = .error failure) :
      ∃ log, checked = .ofFailure log failure :=
    ⟨_, Outcome.ofSteps_of_silent ((runFrom_checkConfig s directory .empty).1 failure hprofile) _⟩
  constructor
  · intro failure hfailure
    rw [result_checkConfig_eq_error_iff] at hfailure
    have hreport : o'.report s = .error failure := by
      rw [report_eq, show s.profileOf o'.root = .error failure from hfailure]
      rfl
    obtain ⟨log, hchecked⟩ := hchecked hfailure
    obtain ⟨log', hscored⟩ : ∃ log', scored = _ := o'.exists_outcome_eq s v'
    refine ⟨(o'.result_run_eq_error_iff s).mpr hreport, ?_⟩
    rw [hchecked, hscored, hreport]
    exact ⟨rfl, rfl, rfl⟩
  · intro hcode failure hfailure
    cases hprofile : s.profileOf directory with
    | error cause =>
      obtain ⟨log, hchecked⟩ := hchecked hprofile
      rw [hchecked] at hcode
      exact absurd hcode (Outcome.failureCode_ne cause).1
    | ok p =>
      exact of_report_eq_error (o := o') hprofile ((o'.result_run_eq_error_iff s).mp hfailure)

/-- Two directories, one with settings that make no profile, and no bundle. -/
def Surroundings.withoutBundle : Surroundings where
  power := Power.square
  files := fun path =>
    if path = "good" ∨ path = "bad" then some .directory
    else if path = "good/codehealth.toml" then some (.file "criticism.base = 2\n".toUTF8)
    else if path = "bad/codehealth.toml" then some (.file "criticism.base = 0\n".toUTF8)
    else none
  home := none

theorem checkConfig_run_withoutBundle :
    (∃ failure, (checkConfig .withoutBundle "bad").result = .error failure ∧
      (({ strictest with configDir := some "bad" } : ScoreOptions).run .withoutBundle).result =
        .error failure) ∧
    (Invocation.run .withoutBundle ⟨⟨false, 0⟩, .checkConfig "good"⟩).exitCode = 0 ∧
    ∃ failure, (({ strictest with configDir := some "good" } : ScoreOptions).run
        .withoutBundle).result = .error failure ∧
      (failure = .noSuchPath "b.json" ∧ Surroundings.withoutBundle.files.hasPath "b.json" = false ∨
        (∃ fault, failure = .unreadable fault ∧
          Surroundings.withoutBundle.files.readText "b.json" = .error failure) ∨
        failure = .bundle ∨ ∃ path fault, failure = .file path fault) := by
  have hbad : (Surroundings.withoutBundle.profileOf "bad").isOk = false := by decide +kernel
  have hgood : (Invocation.run .withoutBundle ⟨⟨false, 0⟩, .checkConfig "good"⟩).exitCode = 0 := by
    decide +kernel
  have hmissing : (({ strictest with configDir := some "good" } : ScoreOptions).run
      .withoutBundle).result.isOk = false := by
    decide +kernel
  refine ⟨?_, hgood, ?_⟩
  · cases hprofile : Surroundings.withoutBundle.profileOf "bad" with
    | ok p =>
      rw [hprofile] at hbad
      cases hbad
    | error failure =>
      have hrun := checkConfig_run .withoutBundle "bad" .strictest ⟨false, 0⟩ ⟨false, 0⟩
      have hfailure := result_checkConfig_eq_error_iff.mpr hprofile
      exact ⟨failure, hfailure, (hrun.1 failure hfailure).1⟩
  · cases hfailure : (({ strictest with configDir := some "good" } : ScoreOptions).run
        .withoutBundle).result with
    | ok code =>
      rw [hfailure] at hmissing
      cases hmissing
    | error failure =>
      have hrun := checkConfig_run .withoutBundle "good" .strictest ⟨false, 0⟩ ⟨false, 0⟩
      exact ⟨failure, rfl, hrun.2 hgood failure hfailure⟩

end CodeQuality
