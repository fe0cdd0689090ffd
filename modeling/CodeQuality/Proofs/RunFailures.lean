import CodeQuality.Proofs.Batches
import CodeQuality.Proofs.QualityGate
import CodeQuality.Proofs.Settings.Resolution

/-!
How a run ends.

A run checks the directory, the settings, the bundle and the files, in this order. The first check
that goes wrong decides how the run fails, and then nothing is printed. If none does, the report is
printed, the same one under every threshold, and the threshold decides on the exit code.
-/

namespace CodeQuality

/-- The profile that the settings of a directory make. -/
def Surroundings.profileOf (s : Surroundings) (root : String) : Except Failure Profile := do
  let loaded ← s.settingsFor root
  loaded.settings.resolve

namespace ScoreOptions

/-! ## Checks -/

inductive Check where
  | directory
  | layers
  | settings
  | bundlePath
  | bundleText
  | bundleShape
  | distinctPaths
  | files

namespace Check

def ofSettings : List Check := [directory, layers, settings]

def ofBundle : List Check := [bundlePath, bundleText, bundleShape]

def ofFiles : List Check := [distinctPaths, files]

-- All checks, in the order in which a run makes them.
def all : List Check := ofSettings ++ (ofBundle ++ ofFiles)

theorem mem_all (check : Check) : check ∈ all := by
  cases check <;> simp [all, ofSettings, ofBundle, ofFiles]

end Check

/-- How a check goes wrong, each by itself: a check that looks at what an earlier one has found
takes only this from it. -/
inductive Fails (o : ScoreOptions) (s : Surroundings) : Check → Failure → Prop where
  | directory : s.files.hasPath o.root = false → Fails o s .directory (.noSuchPath o.root)
  | layers {failure : Failure} : s.load o.root = .error failure → Fails o s .layers failure
  | settings {loaded : Option LoadedSettings} {failure : Failure} : s.load o.root = .ok loaded →
      (loaded.getD .none).settings.resolve = .error failure → Fails o s .settings failure
  | bundlePath : s.files.hasPath o.input = false → Fails o s .bundlePath (.noSuchPath o.input)
  | bundleText {fault : ReadFault} : s.files.readText o.input = .error (.unreadable fault) →
      Fails o s .bundleText (.unreadable fault)
  | bundleShape {text : String} : s.files.readText o.input = .ok text →
      Bundle.ofText text = .error .bundle → Fails o s .bundleShape .bundle
  | distinctPaths {files : List SourceFile} {path : String} : s.readBundle o.input = .ok files →
      SourceFile.firstRepeat? [] files = some path →
      Fails o s .distinctPaths (.file path .repeated)
  | files {files : List SourceFile} {f : SourceFile} {fault : SourceFile.Fault} :
      s.readBundle o.input = .ok files → f ∈ files → f.fault? = some fault →
      Fails o s .files (.file f.path fault)

def Passes (o : ScoreOptions) (s : Surroundings) (check : Check) : Prop :=
  ∀ failure, ¬ o.Fails s check failure

/-- The failure of the first check of a list that goes wrong. -/
inductive FirstFailure (o : ScoreOptions) (s : Surroundings) : List Check → Failure → Prop where
  | here {check : Check} {rest : List Check} {failure : Failure} :
      o.Fails s check failure → FirstFailure o s (check :: rest) failure
  | later {check : Check} {rest : List Check} {failure : Failure} :
      o.Passes s check → FirstFailure o s rest failure → FirstFailure o s (check :: rest) failure

variable {o : ScoreOptions} {s : Surroundings}

theorem FirstFailure.exists_fails {checks : List Check} {failure : Failure}
    (h : o.FirstFailure s checks failure) : ∃ check ∈ checks, o.Fails s check failure := by
  induction h with
  | here hfails => exact ⟨_, List.mem_cons_self .., hfails⟩
  | later _ _ ih =>
    obtain ⟨check, hmem, hfails⟩ := ih
    exact ⟨check, List.mem_cons_of_mem _ hmem, hfails⟩

theorem FirstFailure.append {before rest : List Check} {failure : Failure}
    (hbefore : ∀ check ∈ before, o.Passes s check) (h : o.FirstFailure s rest failure) :
    o.FirstFailure s (before ++ rest) failure := by
  induction before with
  | nil => exact h
  | cons check before ih =>
    rw [List.forall_mem_cons] at hbefore
    exact .later hbefore.1 (ih hbefore.2)

/-! ## Checks that pass -/

theorem passes_directory (h : s.files.hasPath o.root = true) : o.Passes s .directory := by
  intro failure hfails
  cases hfails with
  | directory hmissing => rw [h] at hmissing; cases hmissing

theorem passes_layers {loaded : Option LoadedSettings} (h : s.load o.root = .ok loaded) :
    o.Passes s .layers := by
  intro failure hfails
  cases hfails with
  | layers herror => rw [h] at herror; cases herror

theorem passes_settings {loaded : Option LoadedSettings} {p : Profile}
    (hload : s.load o.root = .ok loaded) (h : (loaded.getD .none).settings.resolve = .ok p) :
    o.Passes s .settings := by
  intro failure hfails
  cases hfails with
  | settings hload' herror =>
    obtain rfl := Except.ok.inj (hload.symm.trans hload')
    rw [h] at herror
    cases herror

theorem passes_bundlePath (h : s.files.hasPath o.input = true) : o.Passes s .bundlePath := by
  intro failure hfails
  cases hfails with
  | bundlePath hmissing => rw [h] at hmissing; cases hmissing

theorem passes_bundleText {text : String} (h : s.files.readText o.input = .ok text) :
    o.Passes s .bundleText := by
  intro failure hfails
  cases hfails with
  | bundleText herror => rw [h] at herror; cases herror

theorem passes_bundleShape {text : String} {files : List SourceFile}
    (htext : s.files.readText o.input = .ok text) (h : Bundle.ofText text = .ok files) :
    o.Passes s .bundleShape := by
  intro failure hfails
  cases hfails with
  | bundleShape htext' herror =>
    obtain rfl := Except.ok.inj (htext.symm.trans htext')
    rw [h] at herror
    cases herror

theorem passes_distinctPaths {files : List SourceFile} (hfiles : s.readBundle o.input = .ok files)
    (h : SourceFile.firstRepeat? [] files = none) : o.Passes s .distinctPaths := by
  intro failure hfails
  cases hfails with
  | distinctPaths hfiles' hrepeat =>
    obtain rfl := Except.ok.inj (hfiles.symm.trans hfiles')
    rw [h] at hrepeat
    cases hrepeat

theorem passes_files {files : List SourceFile} (hfiles : s.readBundle o.input = .ok files)
    (h : ∀ f ∈ files, f.fault? = none) : o.Passes s .files := by
  intro failure hfails
  cases hfails with
  | files hfiles' hmem hfault =>
    obtain rfl := Except.ok.inj (hfiles.symm.trans hfiles')
    rw [h _ hmem] at hfault
    cases hfault

end ScoreOptions

/-! ## The three parts of a run -/

theorem FileTree.of_readText_eq_error {tree : FileTree} {path : String}
    (h : tree.hasPath path = true) {failure : Failure}
    (hread : tree.readText path = .error failure) : ∃ fault, failure = .unreadable fault := by
  unfold hasPath at h
  unfold readText at hread
  split at hread
  · next hnone =>
      rw [hnone] at h
      cases h
  · exact ⟨_, (Except.error.inj hread).symm⟩
  · exact ⟨_, (Except.error.inj hread).symm⟩
  · split at hread
    · cases hread
    · exact ⟨_, (Except.error.inj hread).symm⟩

theorem Bundle.of_ofText_eq_error {text : String} {failure : Failure}
    (h : ofText text = .error failure) : failure = .bundle := by
  unfold ofText at h
  split at h
  · cases h
  · exact (Except.error.inj h).symm

theorem Settings.accepted_of_resolve {settings : Settings} {p : Profile}
    (h : settings.resolve = .ok p) : p.Accepted := by
  obtain ⟨_, _, -, -, haccepted, rfl⟩ := resolve_eq_ok_iff.mp h
  exact haccepted

theorem Profile.scoreProject_of_repeat {power : Power} {p : Profile} (hp : p.Accepted)
    {files : List SourceFile} {path : String}
    (h : SourceFile.firstRepeat? [] files = some path) :
    p.scoreProject power files = .error (.file path .repeated) := by
  unfold scoreProject scoreProjectBy scoreBatchBy
  rw [p.validate_eq_ok_iff.mpr hp, h]
  rfl

theorem Profile.of_scoreProject_eq_error {power : Power} {p : Profile} (hp : p.Accepted)
    {files : List SourceFile} (h : SourceFile.firstRepeat? [] files = none) {failure : Failure}
    (herror : p.scoreProject power files = .error failure) :
    ∃ f ∈ files, ∃ fault, f.fault? = some fault ∧ failure = .file f.path fault := by
  have hvalid := p.validate_eq_ok_iff.mpr hp
  have hnodup := ((SourceFile.firstRepeat?_eq_none_iff files []).mp h).1
  unfold scoreProject at herror
  rw [scoreProjectBy_of_validate hvalid] at herror
  cases hscores : p.scoreFilesBy .inOrder power files with
  | ok scores =>
    rw [hscores] at herror
    cases herror
  | error cause =>
    rw [hscores] at herror
    cases herror
    exact of_scoreFilesBy_eq_error Traversal.collects_inOrder hvalid hnodup hscores

namespace ScoreOptions

variable {o : ScoreOptions} {s : Surroundings}

/-- Either the settings make a profile, or the first of their checks that goes wrong decides. -/
theorem profileOf_cases (o : ScoreOptions) (s : Surroundings) :
    (∃ loaded p, s.load o.root = .ok loaded ∧ (loaded.getD .none).settings.resolve = .ok p ∧
      s.profileOf o.root = .ok p ∧ ∀ check ∈ Check.ofSettings, o.Passes s check) ∨
    ∃ failure, s.profileOf o.root = .error failure ∧
      ∀ later, o.FirstFailure s (Check.ofSettings ++ later) failure := by
  unfold Surroundings.profileOf Surroundings.settingsFor Surroundings.checkPath Check.ofSettings
  by_cases hroot : s.files.hasPath o.root = true
  · have hdirectory := passes_directory hroot
    rw [if_pos hroot]
    cases hload : s.load o.root with
    | error failure =>
      exact .inr ⟨failure, rfl, fun _ => .later hdirectory (.here (.layers hload))⟩
    | ok loaded =>
      have hlayers := passes_layers hload
      cases hresolve : (loaded.getD .none).settings.resolve with
      | error failure =>
        exact .inr ⟨failure, hresolve,
          fun _ => .later hdirectory (.later hlayers (.here (.settings hload hresolve)))⟩
      | ok p =>
        have hsettings := passes_settings hload hresolve
        refine .inl ⟨loaded, p, rfl, hresolve, hresolve, ?_⟩
        simp [hdirectory, hlayers, hsettings]
  · rw [if_neg hroot]
    exact .inr ⟨_, rfl, fun _ => .here (.directory (Bool.eq_false_iff.mpr hroot))⟩

/-- Either the bundle is read, or the first of its checks that goes wrong decides. -/
theorem readBundle_cases (o : ScoreOptions) (s : Surroundings) :
    (∃ text files, s.files.readText o.input = .ok text ∧ Bundle.ofText text = .ok files ∧
      s.readBundle o.input = .ok files ∧ ∀ check ∈ Check.ofBundle, o.Passes s check) ∨
    ∃ failure, s.readBundle o.input = .error failure ∧
      ∀ later, o.FirstFailure s (Check.ofBundle ++ later) failure := by
  unfold Surroundings.readBundle Surroundings.checkPath Check.ofBundle
  by_cases hinput : s.files.hasPath o.input = true
  · have hpath := passes_bundlePath hinput
    rw [if_pos hinput]
    cases htext : s.files.readText o.input with
    | error failure =>
      obtain ⟨fault, rfl⟩ := FileTree.of_readText_eq_error hinput htext
      exact .inr ⟨_, rfl, fun _ => .later hpath (.here (.bundleText htext))⟩
    | ok text =>
      have hread := passes_bundleText htext
      cases hfiles : Bundle.ofText text with
      | error failure =>
        obtain rfl := Bundle.of_ofText_eq_error hfiles
        exact .inr ⟨_, hfiles,
          fun _ => .later hpath (.later hread (.here (.bundleShape htext hfiles)))⟩
      | ok files =>
        have hshape := passes_bundleShape htext hfiles
        refine .inl ⟨text, files, rfl, hfiles, hfiles, ?_⟩
        simp [hpath, hread, hshape]
  · rw [if_neg hinput]
    exact .inr ⟨_, rfl, fun _ => .here (.bundlePath (Bool.eq_false_iff.mpr hinput))⟩

/-- Either the files of the bundle are scored, or the first of their checks that goes wrong
decides. The profile is good by then. -/
theorem scoreProject_cases {p : Profile} (hp : p.Accepted) {files : List SourceFile}
    (hfiles : s.readBundle o.input = .ok files) :
    (∃ r, p.scoreProject s.power files = .ok r ∧ ∀ check ∈ Check.ofFiles, o.Passes s check) ∨
    ∃ failure, p.scoreProject s.power files = .error failure ∧
      o.FirstFailure s Check.ofFiles failure := by
  cases hrepeat : SourceFile.firstRepeat? [] files with
  | some path =>
    exact .inr ⟨_, Profile.scoreProject_of_repeat hp hrepeat, .here (.distinctPaths hfiles hrepeat)⟩
  | none =>
    have hdistinct := passes_distinctPaths hfiles hrepeat
    cases hscored : p.scoreProject s.power files with
    | error failure =>
      obtain ⟨f, hf, fault, hfault, rfl⟩ := Profile.of_scoreProject_eq_error hp hrepeat hscored
      exact .inr ⟨_, rfl, .later hdistinct (.here (.files hfiles hf hfault))⟩
    | ok r =>
      obtain ⟨-, -, hvalid, -⟩ := Profile.scoreProject_eq_ok_iff.mp hscored
      have hvalid := passes_files hfiles hvalid
      refine .inl ⟨r, rfl, ?_⟩
      simp [Check.ofFiles, hdistinct, hvalid]

theorem report_eq (o : ScoreOptions) (s : Surroundings) :
    o.report s = s.profileOf o.root >>= fun p => s.readBundle o.input >>= fun files =>
      (o.mode.elim p p.withMode).scoreProject s.power files := by
  unfold report inputs profile Surroundings.profileOf
  cases s.settingsFor o.root with
  | error failure => rfl
  | ok loaded =>
    simp only [bind, Except.bind]
    cases loaded.settings.resolve with
    | error failure => rfl
    | ok p => cases s.readBundle o.input <;> cases o.mode <;> rfl

/-- Either a project is scored, or the first check that goes wrong decides. -/
theorem report_cases (o : ScoreOptions) (s : Surroundings) :
    (∃ loaded p text files r, s.load o.root = .ok loaded ∧
      (loaded.getD .none).settings.resolve = .ok p ∧ s.files.readText o.input = .ok text ∧
      Bundle.ofText text = .ok files ∧
      (o.mode.elim p p.withMode).scoreProject s.power files = .ok r ∧ o.report s = .ok r ∧
      ∀ check ∈ Check.all, o.Passes s check) ∨
    ∃ failure, o.report s = .error failure ∧ o.FirstFailure s Check.all failure := by
  rw [report_eq]
  rcases o.profileOf_cases s with
    ⟨loaded, p, hload, hresolve, hprofile, hsettings⟩ | ⟨failure, hprofile, hfirst⟩
  · rw [hprofile]
    rcases o.readBundle_cases s with
      ⟨text, files, htext, hshape, hfiles, hbundle⟩ | ⟨failure, hfiles, hfirst⟩
    · have hp : (o.mode.elim p p.withMode).Accepted := by
        cases o.mode with
        | none => exact Settings.accepted_of_resolve hresolve
        | some mode => exact (Settings.accepted_of_resolve hresolve).withMode mode
      rw [hfiles]
      rcases scoreProject_cases hp hfiles with ⟨r, hscored, hvalid⟩ | ⟨failure, hscored, hfirst⟩
      · refine .inl
          ⟨loaded, p, text, files, r, hload, hresolve, htext, hshape, hscored, hscored, ?_⟩
        exact List.forall_mem_append.mpr ⟨hsettings, List.forall_mem_append.mpr ⟨hbundle, hvalid⟩⟩
      · exact .inr ⟨failure, hscored, .append hsettings (.append hbundle hfirst)⟩
    · rw [hfiles]
      exact .inr ⟨failure, rfl, .append hsettings (hfirst _)⟩
  · rw [hprofile]
    exact .inr ⟨failure, rfl, hfirst _⟩

theorem stdout_outcome (o : ScoreOptions) (log : List LogLine) (r : Report) :
    (o.outcome log (.ok r)).stdout = r.render o.top o.format ++ "\n" := by
  unfold outcome
  dsimp only
  cases o.complaint? r.project.overall <;> rfl

theorem exitCode_outcome (o : ScoreOptions) (log : List LogLine) (r : Report) :
    (o.outcome log (.ok r)).exitCode =
      if o.failUnder.any (r.project.overall < ·) then 1 else 0 := by
  unfold outcome complaint?
  cases o.failUnder with
  | none => rfl
  | some threshold =>
    by_cases h : r.project.overall < threshold
    · simp [h, Outcome.belowThreshold]
    · simp [h, Outcome.success]

/-- A threshold changes nothing in what is printed. -/
theorem stdout_failUnder (o : ScoreOptions) (s : Surroundings) (v : Verbosity)
    (gate : Option Float) :
    (Invocation.run s ⟨v, .score { o with failUnder := gate }⟩).stdout =
      (Invocation.run s ⟨v, .score o⟩).stdout := by
  obtain ⟨log, hgated⟩ := exists_outcome_eq { o with failUnder := gate } s v
  obtain ⟨log', houtcome⟩ := o.exists_outcome_eq s v
  rw [hgated, houtcome]
  -- A report is made before the threshold is looked at.
  show (outcome _ log (o.report s)).stdout = _
  cases o.report s with
  | error failure => rfl
  | ok r => exact (stdout_outcome _ log r).trans (o.stdout_outcome log' r).symm

theorem result_run_eq_error_iff (o : ScoreOptions) (s : Surroundings) {failure : Failure} :
    (o.run s).result = .error failure ↔ o.report s = .error failure := by
  unfold Console.result
  rw [runFrom_run]
  cases o.report s with
  | error cause => simp
  | ok r =>
    dsimp only
    rw [runFrom_print]
    cases o.complaint? r.project.overall <;> simp

end ScoreOptions

open ScoreOptions in
/-- A run prints the same under every threshold. Either it fails, with the failure of the first
check that goes wrong, and prints nothing; or all checks pass, and it prints the report on the files
of the bundle under the profile of the settings in the mode that is asked for. The exit code is that
of the failure, or else tells whether the overall score is below the threshold. -/
theorem Invocation.run_score (s : Surroundings) (o : ScoreOptions) (v : Verbosity) :
    let outcome := Invocation.run s ⟨v, .score o⟩
    (∀ gate, (Invocation.run s ⟨v, .score { o with failUnder := gate }⟩).stdout =
      outcome.stdout) ∧
    ((∃ failure, (o.run s).result = .error failure ∧ o.FirstFailure s Check.all failure ∧
        outcome.stdout = "" ∧ outcome.stderr = s!"error: {failure.message}\n" ∧
        outcome.exitCode = if failure.isValidation then 2 else 3) ∨
      (∀ check, o.Passes s check) ∧
      ∃ loaded p text files r, s.load o.root = .ok loaded ∧
        (loaded.getD .none).settings.resolve = .ok p ∧ s.files.readText o.input = .ok text ∧
        Bundle.ofText text = .ok files ∧
        (o.mode.elim p p.withMode).scoreProject s.power files = .ok r ∧
        outcome.stdout = r.render o.top o.format ++ "\n" ∧
        outcome.exitCode = if o.failUnder.any (r.project.overall < ·) then 1 else 0) := by
  intro outcome
  refine ⟨o.stdout_failUnder s v, ?_⟩
  obtain ⟨log, houtcome⟩ : ∃ log, outcome = _ := o.exists_outcome_eq s v
  rw [houtcome]
  rcases o.report_cases s with
    ⟨loaded, p, text, files, r, hload, hresolve, htext, hshape, hscored, hreport, hpass⟩ |
    ⟨failure, hreport, hfirst⟩
  · refine .inr ⟨fun check => hpass check check.mem_all, loaded, p, text, files, r, hload, hresolve,
      htext, hshape, hscored, ?_⟩
    rw [hreport]
    exact ⟨o.stdout_outcome log r, o.exitCode_outcome log r⟩
  · have hresult := (o.result_run_eq_error_iff s).mpr hreport
    rw [hreport]
    exact .inl ⟨failure, hresult, hfirst, rfl, rfl, rfl⟩

end CodeQuality
