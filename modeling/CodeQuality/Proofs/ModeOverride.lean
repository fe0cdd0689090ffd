import CodeQuality.Command.Run
import CodeQuality.Proofs.Settings.Resolution
import CodeQuality.Proofs.Settings.Surplus

/-!
The mode asked for on the command line.

It goes into the profile after the settings are resolved. A layer on top of all others that sets the
mode, and nothing else, goes through merging, reading and resolving again. Both ways lead to one
profile, so a run does not tell them apart.
-/

namespace CodeQuality

/-- The table of a layer that sets the mode and nothing else. -/
def DuplicationMode.entries (mode : DuplicationMode) : Toml.Entries :=
  [("scoring", .table [("duplication_mode", .string mode.name)])]

/-! ## Merged settings -/

section

variable (root : Toml.Entries) (mode : DuplicationMode)

theorem Toml.overlay_modeEntries :
    overlay root mode.entries =
      putEntry "scoring"
        (.table (putEntry "duplication_mode" (.string mode.name)
          (tableEntries (root.lookup "scoring")))) root := by
  simp only [DuplicationMode.entries, overlay, layOver]

theorem Toml.lookup_overlay_modeEntries {key : String} (h : key ≠ "scoring") :
    (overlay root mode.entries).lookup key = root.lookup key := by
  rw [overlay_modeEntries, lookup_putEntry_of_ne h]

theorem Toml.lookup_scoring_overlay_modeEntries :
    (overlay root mode.entries).lookup "scoring" =
      some (.table (putEntry "duplication_mode" (.string mode.name)
        (tableEntries (root.lookup "scoring")))) := by
  rw [overlay_modeEntries, lookup_putEntry_self]

end

namespace Settings

theorem ReadFrom.keys_scoring {root : Toml.Entries} {s : Settings} (h : ReadFrom root s) :
    ∀ entry ∈ Toml.tableEntries (root.lookup "scoring"), entry.1 ∈ scoringNames := by
  obtain ⟨fields, hfields, -⟩ := Option.bind_eq_some_iff.mp h.scoring
  cases hsection : root.lookup "scoring" with
  | none => exact nofun
  | some v =>
    rw [hsection] at hfields
    cases v with
    | table entries =>
      rw [Toml.openFields?] at hfields
      exact (Toml.fields?_table_eq_some_iff.mp hfields).1
    | _ => exact nofun

/-- A layer that sets the mode changes nothing but the mode, whether the section below it is
missing, a table or an array. -/
theorem ReadFrom.overlay_modeEntries {root : Toml.Entries} {s : Settings} (h : ReadFrom root s)
    (mode : DuplicationMode) :
    ReadFrom (Toml.overlay root mode.entries) { s with mode := some mode.name } := by
  have hkept {key : String} (hne : key ≠ "scoring") :=
    Toml.lookup_overlay_modeEntries root mode hne
  refine ⟨fun entry hentry => ?_, ?_, ?_, ?_, ?_, ?_⟩
  · rw [Toml.overlay_modeEntries] at hentry
    rcases mem_putEntry hentry with rfl | hmem
    · exact List.mem_cons_self
    · exact h.keys entry hmem
  · have hfields : (Toml.table (putEntry "duplication_mode" (.string mode.name)
        (Toml.tableEntries (root.lookup "scoring")))).fields? .whole scoringNames =
          some [some (.string mode.name)] := by
      refine Toml.fields?_table_eq_some_iff.mpr ⟨fun entry hentry => ?_, ?_⟩
      · rcases mem_putEntry hentry with rfl | hmem
        · exact List.mem_cons_self
        · exact h.keys_scoring entry hmem
      · rw [scoringNames, List.map_singleton, lookup_putEntry_self]
    rw [Toml.lookup_scoring_overlay_modeEntries, Toml.openFields?, hfields]
    rfl
  · rw [hkept (by decide)]
    exact h.issues
  · rw [hkept (by decide)]
    exact h.aggregation
  · rw [hkept (by decide)]
    exact h.criticism
  · rw [hkept (by decide)]
    exact h.curves

-- A table has no array with too many items in a section without sections.
theorem surplus?_flat_table (names : List String) (entries : Toml.Entries) :
    (SectionShape.flat names).surplus? (.table entries) = none := by
  rw [← Option.not_isSome_iff_eq_none, SectionShape.flat, SectionShape.surplus?,
    SectionShape.surplusInTable?_isSome_iff]
  rintro ⟨key, shape, v, hmem, -, hsurplus⟩
  obtain ⟨name, -, heq⟩ := List.mem_map.mp hmem
  cases heq
  cases hsurplus

theorem surplus?_overlay_modeEntries {root : Toml.Entries}
    (h : SectionShape.settings.surplus? (.table root) = none) (mode : DuplicationMode) :
    SectionShape.settings.surplus? (.table (Toml.overlay root mode.entries)) = none := by
  rw [← Option.not_isSome_iff_eq_none, SectionShape.settings, SectionShape.surplus?,
    SectionShape.surplusInTable?_isSome_iff] at h ⊢
  rintro ⟨key, shape, v, hmem, hv, hsurplus⟩
  by_cases hkey : key = "scoring"
  · subst hkey
    rw [Toml.lookup_scoring_overlay_modeEntries] at hv
    cases hv
    have hshape : shape = SectionShape.flat ["duplication_mode"] := by simpa using hmem
    rw [hshape, surplus?_flat_table] at hsurplus
    cases hsurplus
  · rw [Toml.lookup_overlay_modeEntries root mode hkey] at hv
    exact h ⟨key, shape, v, hmem, hv, hsurplus⟩

theorem ofLayers_concat_mode {tables : List Toml.Entries} {s : Settings}
    (h : ofLayers tables = .ok s) (mode : DuplicationMode) :
    ofLayers (tables ++ [mode.entries]) = .ok { s with mode := some mode.name } := by
  obtain ⟨hsurplus, hread⟩ := ofLayers_eq_ok_iff.mp h
  rw [ofLayers_eq_ok_iff, Toml.overlayAll_concat]
  exact ⟨surplus?_overlay_modeEntries hsurplus mode,
    ((readFrom_of_ofEntries? hread).overlay_modeEntries mode).ofEntries?⟩

theorem load_concat_mode {tree : FileTree} {candidates : List Layer} {s : Settings}
    (h : load tree candidates = .ok s) {top : Layer} {mode : DuplicationMode}
    (htop : top.read tree = .ok mode.entries) :
    load tree (candidates ++ [top]) = .ok { s with mode := some mode.name } := by
  obtain ⟨tables, htables, hs⟩ := load_eq_ok_iff.mp h
  refine load_eq_ok_iff.mpr ⟨tables ++ [mode.entries], ?_, ofLayers_concat_mode hs mode⟩
  rw [Layer.present_append, Layer.present_cons_of_read_eq_ok htop, List.mapM_append, htables,
    List.mapM_cons, htop]
  rfl

end Settings

/-! ## Runs -/

namespace ScoreOptions

/-- A run under the settings of any layers. -/
def runOver (o : ScoreOptions) (s : Surroundings) (candidates : List Layer) : Console UInt32 := do
  s.checkPath o.root
  o.runWith s (← Settings.load s.files candidates)

theorem run_eq_runOver (o : ScoreOptions) (s : Surroundings) :
    o.run s = o.runOver s (s.candidates o.root) := by
  unfold run runOver Surroundings.settingsFor Surroundings.load Settings.load
  cases s.checkPath o.root with
  | error failure => rfl
  | ok _ =>
    cases LoadedSettings.load s.files (s.candidates o.root) with
    | error failure => rfl
    | ok loaded => rfl

/-- A run knows of the settings and of the mode that is asked for only by the profile they make. -/
theorem runWith_congr {o o' : ScoreOptions} {s : Surroundings} {settings settings' : Settings}
    (hprofile : o.profile settings = o'.profile settings') (hinput : o.input = o'.input)
    (hprint : o.print = o'.print) : o.runWith s settings = o'.runWith s settings' := by
  unfold runWith
  rw [hprofile, hinput, hprint]

theorem profile_of_mode {o : ScoreOptions} {settings : Settings} {p : Profile}
    (h : settings.resolve = .ok p) (mode : DuplicationMode) :
    ({ o with mode := some mode } : ScoreOptions).profile settings =
      ({ o with mode := none } : ScoreOptions).profile
        { settings with mode := some mode.name } := by
  unfold profile
  rw [h, Settings.resolve_of_mode h]
  rfl

theorem runOver_mode {o : ScoreOptions} {s : Surroundings} {candidates : List Layer} {p : Profile}
    (hprofile : LoadedSettings.profile s.files candidates = .ok p) {top : Layer}
    {mode : DuplicationMode} (htop : top.read s.files = .ok mode.entries) :
    ({ o with mode := some mode } : ScoreOptions).runOver s candidates =
      ({ o with mode := none } : ScoreOptions).runOver s (candidates ++ [top]) := by
  rw [LoadedSettings.profile_eq] at hprofile
  obtain ⟨settings, hload, hresolve⟩ := bind_eq_ok_iff.mp hprofile
  unfold runOver
  rw [hload, Settings.load_concat_mode hload htop]
  have hrun := runWith_congr (s := s) (profile_of_mode (o := o) hresolve mode) rfl rfl
  simp only [root, Console.except_ok_bind, hrun]

end ScoreOptions

theorem Outcome.of_ofSteps (log log' : List LogLine) (steps : Console UInt32) :
    (ofSteps log steps).stdout = (ofSteps log' steps).stdout ∧
      (ofSteps log steps).stderr = (ofSteps log' steps).stderr ∧
      (ofSteps log steps).exitCode = (ofSteps log' steps).exitCode := by
  unfold ofSteps
  rcases steps.runFrom .empty with ⟨failure | code, printed⟩
  · exact ⟨rfl, rfl, rfl⟩
  · exact ⟨rfl, rfl, rfl⟩

/-- Where the layers make a profile, asking for a mode on the command line prints the same, and ends
with the same exit code, as one more layer on top of them that sets this mode and nothing else. -/
theorem Invocation.run_mode {s : Surroundings} {o : ScoreOptions} {p : Profile}
    (hprofile : LoadedSettings.profile s.files (s.candidates o.root) = .ok p) {top : Layer}
    {mode : DuplicationMode} (htop : top.read s.files = .ok mode.entries) (v : Verbosity)
    (log : List LogLine) :
    let flagged := Invocation.run s ⟨v, .score { o with mode := some mode }⟩
    let layered := Outcome.ofSteps log
      (({ o with mode := none } : ScoreOptions).runOver s (s.candidates o.root ++ [top]))
    flagged.stdout = layered.stdout ∧ flagged.stderr = layered.stderr ∧
      flagged.exitCode = layered.exitCode := by
  intro flagged layered
  have hrun : ({ o with mode := some mode } : ScoreOptions).run s =
      ({ o with mode := none } : ScoreOptions).runOver s (s.candidates o.root ++ [top]) := by
    rw [ScoreOptions.run_eq_runOver]
    exact ScoreOptions.runOver_mode hprofile htop
  -- The two log different layers, but what is logged is kept apart from the rest.
  have hflagged : ∃ flaggedLog, flagged = .ofSteps flaggedLog
      (({ o with mode := none } : ScoreOptions).runOver s (s.candidates o.root ++ [top])) := by
    rw [← hrun]
    exact ⟨_, rfl⟩
  obtain ⟨flaggedLog, hflagged⟩ := hflagged
  rw [hflagged]
  exact Outcome.of_ofSteps flaggedLog log _

/-- A directory whose settings have the mode in an array, a bundle with one file, and a file of
settings that asks for the other mode. No penalty of the file takes a power. -/
def Surroundings.modeInArray : Surroundings where
  power := fun x _ => x
  files := fun path =>
    if path = "." then some .directory
    else if path = "./codehealth.toml" then some (.file "scoring = [\"strict\"]\n".toUTF8)
    else if path = "b.json" then some (.file "[[[\"a\",[5,0,0]]]]".toUTF8)
    else if path = "mode.toml" then
      some (.file "[scoring]\nduplication_mode = \"legacy\"\n".toUTF8)
    else none
  home := none

def ScoreOptions.plain : ScoreOptions := ⟨"b.json", none, none, .json, 10, none⟩

/-- The section, the key and the value of a table that sets one text and nothing else. -/
def Toml.onlyText? : Entries → Option (String × String × String)
  | [(name, .table [(key, .string text)])] => some (name, key, text)
  | _ => none

theorem Toml.of_onlyText?_eq_some {entries : Entries} {name key text : String}
    (h : onlyText? entries = some (name, key, text)) :
    entries = [(name, .table [(key, .string text)])] := by
  unfold onlyText? at h
  split at h
  · cases h
    rfl
  · cases h

theorem read_modeInArray :
    Layer.read Surroundings.modeInArray.files ⟨.workingCopy, "mode.toml"⟩ =
      .ok DuplicationMode.legacy.entries := by
  have hany : (Layer.read Surroundings.modeInArray.files ⟨.workingCopy, "mode.toml"⟩).toOption.any
      (fun entries => Toml.onlyText? entries = some ("scoring", "duplication_mode", "legacy")) =
        true := by
    decide +kernel
  obtain ⟨entries, hread, htext⟩ := any_toOption_eq_true_iff.mp hany
  rw [hread, Toml.of_onlyText?_eq_some (of_decide_eq_true htext)]
  rfl

theorem Invocation.run_mode_modeInArray :
    (∃ p, LoadedSettings.profile Surroundings.modeInArray.files
      (Surroundings.modeInArray.candidates ScoreOptions.plain.root) = .ok p) ∧
      Layer.read Surroundings.modeInArray.files ⟨.workingCopy, "mode.toml"⟩ =
        .ok DuplicationMode.legacy.entries ∧
      (Outcome.ofSteps [] (ScoreOptions.plain.runOver .modeInArray
        (Surroundings.modeInArray.candidates ScoreOptions.plain.root ++
          [⟨.workingCopy, "mode.toml"⟩]))).exitCode = Outcome.success := by
  have hprofile : ∃ p, LoadedSettings.profile Surroundings.modeInArray.files
      (Surroundings.modeInArray.candidates ScoreOptions.plain.root) = .ok p := by
    rw [← isOk_iff]
    decide +kernel
  obtain ⟨p, hp⟩ := hprofile
  obtain ⟨-, -, hcode⟩ :=
    Invocation.run_mode (o := .plain) hp read_modeInArray ⟨false, 0⟩ []
  refine ⟨⟨p, hp⟩, read_modeInArray, hcode.symm.trans ?_⟩
  decide +kernel

end CodeQuality
