import CodeQuality.Proofs.Settings.DistinctKeys
import CodeQuality.Proofs.Validation
import CodeQuality.Settings.Layers
import Mathlib.Tactic.SplitIfs

/-!
What it takes for settings to be read: the fields of each section, the tables of the layers, and
the settings that the merged table makes.
-/

namespace CodeQuality

/-! ## Fields -/

section

variable {V : Type} [NumberSource V]

open NumberSource (float?)

theorem Curve.ofFields?_eq_some_iff {a b c d e f g h i : Option V} {curve : Curve} :
    Curve.ofFields? [a, b, c, d, e, f, g, h, i] = some curve ↔
      requiredField float? a = some curve.excellentMax ∧
      requiredField float? b = some curve.linearMax ∧
      requiredField float? c = some curve.quadraticMax ∧
      requiredField float? d = some curve.linearPenalty ∧
      requiredField float? e = some curve.quadraticPenalty ∧
      defaultedField Curve.defaultQuadraticExponent float? f = some curve.quadraticExponent ∧
      requiredField float? g = some curve.exponentialSpan ∧
      requiredField float? h = some curve.exponentialExponent ∧
      requiredField float? i = some curve.exponentialScale := by
  obtain ⟨x₁, x₂, x₃, x₄, x₅, x₆, x₇, x₈, x₉⟩ := curve
  simp only [Curve.ofFields?, Option.bind_eq_bind, Option.bind_eq_some_iff, Option.pure_def,
    Option.some.injEq, Curve.mk.injEq]
  constructor
  · rintro ⟨_, h₁, _, h₂, _, h₃, _, h₄, _, h₅, _, h₆, _, h₇, _, h₈, _, h₉, rfl, rfl, rfl, rfl, rfl,
      rfl, rfl, rfl, rfl⟩
    exact ⟨h₁, h₂, h₃, h₄, h₅, h₆, h₇, h₈, h₉⟩
  · rintro ⟨h₁, h₂, h₃, h₄, h₅, h₆, h₇, h₈, h₉⟩
    exact ⟨_, h₁, _, h₂, _, h₃, _, h₄, _, h₅, _, h₆, _, h₇, _, h₈, _, h₉, by simp⟩

end

theorem Toml.fields?_table_eq_some_iff {form : ArrayForm} {names : List String}
    {entries : Toml.Entries} {values : List (Option Toml)} :
    (Toml.table entries).fields? form names = some values ↔
      (∀ entry ∈ entries, entry.1 ∈ names) ∧
        names.map (fun name => entries.lookup name) = values := by
  simp only [Toml.fields?, List.all_eq_true, List.contains_iff_mem]
  split_ifs with h
  · exact ⟨fun heq => ⟨h, Option.some.inj heq⟩, fun hvalues => congrArg some hvalues.2⟩
  · exact ⟨nofun, fun hvalues => absurd hvalues.1 h⟩

namespace Settings

open Toml (openFields? openField?)

/-! ## Sections -/

def sectionNames : List String := ["scoring", "issues", "aggregation", "criticism", "curves"]

def scoringNames : List String := ["duplication_mode"]

def issueNames : List String := ["weights"]

def aggregationNames : List String := ["scheme", "weights"]

def curveNames : List String :=
  ["complexity", "size", "duplication_legacy", "duplication_strict", "extreme_complexity"]

def ofScoring? : List (Option Toml) → Option (Option String)
  | [mode] => openField? Toml.string? mode
  | _ => none

def ofIssues? : List (Option Toml) → Option (Option Severity.Weights)
  | [severities] => openField? Severity.Weights.ofToml? severities
  | _ => none

def ofAggregation? :
    List (Option Toml) → Option (Option String × Option (List (String × Float)))
  | [scheme, shares] =>
    return (← openField? Toml.string? scheme, ← openField? Toml.numberTable? shares)
  | _ => none

def ofCurves? : List (Option Toml) →
    Option (Option Curve × Option Curve × Option Curve × Option Curve × Option Escalation)
  | [complexity, size, legacy, strict, escalation] =>
    return (← openField? Curve.ofToml? complexity, ← openField? Curve.ofToml? size,
      ← openField? Curve.ofToml? legacy, ← openField? Curve.ofToml? strict,
      ← openField? Escalation.ofToml? escalation)
  | _ => none

theorem ofScoring?_eq_some_iff {fields : List (Option Toml)} {mode : Option String} :
    ofScoring? fields = some mode ↔
      ∃ a, fields = [a] ∧ openField? Toml.string? a = some mode := by
  unfold ofScoring?
  split <;> simp_all

theorem ofIssues?_eq_some_iff {fields : List (Option Toml)}
    {severities : Option Severity.Weights} :
    ofIssues? fields = some severities ↔
      ∃ a, fields = [a] ∧ openField? Severity.Weights.ofToml? a = some severities := by
  unfold ofIssues?
  split <;> simp_all

theorem ofAggregation?_eq_some_iff {fields : List (Option Toml)} {scheme : Option String}
    {shares : Option (List (String × Float))} :
    ofAggregation? fields = some (scheme, shares) ↔
      ∃ a b, fields = [a, b] ∧ openField? Toml.string? a = some scheme ∧
        openField? Toml.numberTable? b = some shares := by
  unfold ofAggregation?
  split <;> simp_all [Option.bind_eq_some_iff]

theorem ofCurves?_eq_some_iff {fields : List (Option Toml)}
    {complexity size legacy strict : Option Curve} {escalation : Option Escalation} :
    ofCurves? fields = some (complexity, size, legacy, strict, escalation) ↔
      ∃ a b c d e, fields = [a, b, c, d, e] ∧ openField? Curve.ofToml? a = some complexity ∧
        openField? Curve.ofToml? b = some size ∧ openField? Curve.ofToml? c = some legacy ∧
        openField? Curve.ofToml? d = some strict ∧
        openField? Escalation.ofToml? e = some escalation := by
  unfold ofCurves?
  split <;> simp_all [Option.bind_eq_some_iff]

/-- Settings read section by section. -/
structure ReadFrom (root : Toml.Entries) (s : Settings) : Prop where
  keys : ∀ entry ∈ root, entry.1 ∈ sectionNames
  scoring : (openFields? scoringNames (root.lookup "scoring")).bind ofScoring? = some s.mode
  issues : (openFields? issueNames (root.lookup "issues")).bind ofIssues? = some s.severities
  aggregation : (openFields? aggregationNames (root.lookup "aggregation")).bind ofAggregation? =
    some (s.scheme, s.shares)
  criticism : openField? Criticism.Weights.ofToml? (root.lookup "criticism") = some s.criticism
  curves : (openFields? curveNames (root.lookup "curves")).bind ofCurves? =
    some (s.complexity, s.size, s.duplicationLegacy, s.duplicationStrict, s.escalation)

theorem readFrom_of_ofEntries? {root : Toml.Entries} {s : Settings}
    (h : ofEntries? root = some s) : ReadFrom root s := by
  obtain ⟨sections, hsections, h⟩ := Option.bind_eq_some_iff.mp h
  obtain ⟨hkeys, rfl⟩ := Toml.fields?_table_eq_some_iff.mp hsections
  -- Every section gives as many fields as it has names, or nothing is read at all.
  obtain ⟨scoring, hscoring, h⟩ := Option.bind_eq_some_iff.mp h
  split at h
  case h_2 => cases h
  obtain ⟨issues, hissues, h⟩ := Option.bind_eq_some_iff.mp h
  split at h
  case h_2 => cases h
  obtain ⟨aggregation, haggregation, h⟩ := Option.bind_eq_some_iff.mp h
  split at h
  case h_2 => cases h
  obtain ⟨curves, hcurves, h⟩ := Option.bind_eq_some_iff.mp h
  split at h
  case h_2 => cases h
  simp only [Option.bind_eq_bind, Option.bind_eq_some_iff] at h
  obtain ⟨_, hmode, _, hseverities, _, hscheme, _, hshares, _, hcriticism, _, hcomplexity, _, hsize,
    _, hlegacy, _, hstrict, _, hescalation, heq⟩ := h
  cases heq
  exact
    { keys := hkeys
      scoring := Option.bind_eq_some_iff.mpr
        ⟨_, hscoring, ofScoring?_eq_some_iff.mpr ⟨_, rfl, hmode⟩⟩
      issues := Option.bind_eq_some_iff.mpr
        ⟨_, hissues, ofIssues?_eq_some_iff.mpr ⟨_, rfl, hseverities⟩⟩
      aggregation := Option.bind_eq_some_iff.mpr
        ⟨_, haggregation, ofAggregation?_eq_some_iff.mpr ⟨_, _, rfl, hscheme, hshares⟩⟩
      criticism := hcriticism
      curves := Option.bind_eq_some_iff.mpr
        ⟨_, hcurves, ofCurves?_eq_some_iff.mpr
          ⟨_, _, _, _, _, rfl, hcomplexity, hsize, hlegacy, hstrict, hescalation⟩⟩ }

theorem ReadFrom.ofEntries? {root : Toml.Entries} {s : Settings} (h : ReadFrom root s) :
    ofEntries? root = some s := by
  obtain ⟨_, hscoring, hscoringRead⟩ := Option.bind_eq_some_iff.mp h.scoring
  obtain ⟨_, hissues, hissuesRead⟩ := Option.bind_eq_some_iff.mp h.issues
  obtain ⟨_, haggregation, haggregationRead⟩ := Option.bind_eq_some_iff.mp h.aggregation
  obtain ⟨_, hcurves, hcurvesRead⟩ := Option.bind_eq_some_iff.mp h.curves
  obtain ⟨_, rfl, hmode⟩ := ofScoring?_eq_some_iff.mp hscoringRead
  obtain ⟨_, rfl, hseverities⟩ := ofIssues?_eq_some_iff.mp hissuesRead
  obtain ⟨_, _, rfl, hscheme, hshares⟩ := ofAggregation?_eq_some_iff.mp haggregationRead
  obtain ⟨_, _, _, _, _, rfl, hcomplexity, hsize, hlegacy, hstrict, hescalation⟩ :=
    ofCurves?_eq_some_iff.mp hcurvesRead
  have hsections : (Toml.table root).fields? .whole sectionNames = _ :=
    Toml.fields?_table_eq_some_iff.mpr ⟨h.keys, rfl⟩
  refine Option.bind_eq_some_iff.mpr ⟨_, hsections, ?_⟩
  refine Option.bind_eq_some_iff.mpr ⟨_, hscoring, ?_⟩
  refine Option.bind_eq_some_iff.mpr ⟨_, hissues, ?_⟩
  refine Option.bind_eq_some_iff.mpr ⟨_, haggregation, ?_⟩
  refine Option.bind_eq_some_iff.mpr ⟨_, hcurves, ?_⟩
  simp [hmode, hseverities, hscheme, hshares, h.criticism, hcomplexity, hsize, hlegacy, hstrict,
    hescalation]

theorem exists_curves_of_ofEntries? {root : Toml.Entries} {s : Settings}
    (h : ofEntries? root = some s) :
    ∃ complexity size legacy strict escalation,
      Toml.openFields? curveNames (root.lookup "curves") =
        some [complexity, size, legacy, strict, escalation] ∧
      Toml.openField? Curve.ofToml? complexity = some s.complexity ∧
      Toml.openField? Curve.ofToml? size = some s.size ∧
      Toml.openField? Curve.ofToml? legacy = some s.duplicationLegacy ∧
      Toml.openField? Curve.ofToml? strict = some s.duplicationStrict := by
  obtain ⟨_, hcurves, hparts⟩ := Option.bind_eq_some_iff.mp (readFrom_of_ofEntries? h).curves
  obtain ⟨_, _, _, _, _, rfl, hcomplexity, hsize, hlegacy, hstrict, -⟩ :=
    ofCurves?_eq_some_iff.mp hparts
  exact ⟨_, _, _, _, _, hcurves, hcomplexity, hsize, hlegacy, hstrict⟩

end Settings

/-! ## Layers -/

theorem any_toOption_eq_true_iff {ε α : Type} {x : Except ε α} {p : α → Bool} :
    x.toOption.any p = true ↔ ∃ a, x = .ok a ∧ p a = true := by
  cases x <;> simp [Except.toOption]

theorem isOk_iff {ε α : Type} {x : Except ε α} : x.isOk = true ↔ ∃ a, x = .ok a := by
  cases x <;> simp [Except.isOk, Except.toBool]

theorem Layer.read_of_parse? {tree : FileTree} {layer : Layer} {text : String}
    {entries : Toml.Entries} (hfile : tree layer.path = some (.file text.toUTF8))
    (hparse : Toml.parse? text = some entries) (hread : (Settings.ofEntries? entries).isSome = true)
    (hmoments : Toml.entryMomentsFit entries = true) : layer.read tree = .ok entries := by
  unfold Layer.read
  rw [FileTree.readText_of_utf8 hfile]
  simp only [bind, Except.bind]
  rw [hparse]
  exact if_pos (by rw [hread, hmoments, Bool.and_self])

theorem Layer.of_read_eq_ok {tree : FileTree} {layer : Layer} {entries : Toml.Entries}
    (h : layer.read tree = .ok entries) :
    (Toml.table entries).Proper ∧ ∃ s, Settings.ofEntries? entries = some s := by
  unfold Layer.read at h
  obtain ⟨text, -, h⟩ := bind_eq_ok_iff.mp h
  dsimp only at h
  split at h
  · cases h
  next parsed hparse =>
    split at h
    next hfits =>
      cases h
      rw [Bool.and_eq_true, Option.isSome_iff_exists] at hfits
      exact ⟨Toml.proper_parse hparse, hfits.1⟩
    next => cases h

theorem exists_of_mem_of_mapM_eq_ok {ε α β : Type} {f : α → Except ε β} {inputs : List α}
    {results : List β} (h : inputs.mapM f = .ok results) :
    ∀ b ∈ results, ∃ a ∈ inputs, f a = .ok b := by
  induction inputs generalizing results with
  | nil =>
    cases h
    simp
  | cons a rest ih =>
    rw [List.mapM_cons] at h
    obtain ⟨b, hb, h⟩ := bind_eq_ok_iff.mp h
    obtain ⟨more, hmore, h⟩ := bind_eq_ok_iff.mp h
    cases h
    refine List.forall_mem_cons.mpr ⟨⟨a, List.mem_cons_self, hb⟩, fun b hmem => ?_⟩
    obtain ⟨a, ha, hfa⟩ := ih hmore b hmem
    exact ⟨a, List.mem_cons_of_mem _ ha, hfa⟩

theorem Settings.curves_of_resolve {s : Settings} {p : Profile} (h : s.resolve = .ok p) :
    p.curves = s.curves := by
  unfold Settings.resolve at h
  obtain ⟨mode, -, h⟩ := bind_eq_ok_iff.mp h
  obtain ⟨weighting, -, h⟩ := bind_eq_ok_iff.mp h
  obtain ⟨-, -, h⟩ := bind_eq_ok_iff.mp h
  cases h
  rfl

/-- The settings that tables make when they are laid over one another, the lowest first. -/
def Settings.ofLayers (tables : List Toml.Entries) : Except Failure Settings :=
  (LoadedSettings.ofMerged [] (Toml.overlayAll tables)).map LoadedSettings.settings

/-- The settings that layers hold; no layer leaves all settings open. -/
def Settings.load (tree : FileTree) (candidates : List Layer) : Except Failure Settings :=
  (LoadedSettings.load tree candidates).map fun loaded => (loaded.getD .none).settings

theorem Settings.ofLayers_eq (layers : List Layer) (tables : List Toml.Entries) :
    ofLayers tables =
      (LoadedSettings.ofMerged layers (Toml.overlayAll tables)).map LoadedSettings.settings := by
  unfold ofLayers LoadedSettings.ofMerged
  split
  · rfl
  · split <;> rfl

theorem Settings.ofLayers_eq_ok_iff {tables : List Toml.Entries} {s : Settings} :
    ofLayers tables = .ok s ↔
      SectionShape.settings.surplus? (.table (Toml.overlayAll tables)) = none ∧
        ofEntries? (Toml.overlayAll tables) = some s := by
  unfold ofLayers LoadedSettings.ofMerged
  cases SectionShape.settings.surplus? (.table (Toml.overlayAll tables)) with
  | some surplus => simp [Except.map]
  | none => cases ofEntries? (Toml.overlayAll tables) <;> simp [Except.map]

theorem Settings.load_eq (tree : FileTree) (candidates : List Layer) :
    load tree candidates =
      ((Layer.present tree candidates).mapM (Layer.read tree) >>= ofLayers) := by
  unfold load LoadedSettings.load
  dsimp only
  split
  next hempty =>
    rw [List.isEmpty_iff.mp hempty]
    rfl
  next =>
    cases (Layer.present tree candidates).mapM (Layer.read tree) with
    | error failure => rfl
    | ok tables =>
      simp only [bind, Except.bind, ofLayers_eq (Layer.present tree candidates)]
      cases LoadedSettings.ofMerged (Layer.present tree candidates) (Toml.overlayAll tables) <;> rfl

theorem Settings.load_eq_ok_iff {tree : FileTree} {candidates : List Layer} {s : Settings} :
    load tree candidates = .ok s ↔
      ∃ tables, (Layer.present tree candidates).mapM (Layer.read tree) = .ok tables ∧
        ofLayers tables = .ok s := by
  rw [load_eq]
  exact bind_eq_ok_iff

theorem LoadedSettings.profile_eq (tree : FileTree) (candidates : List Layer) :
    profile tree candidates = (Settings.load tree candidates >>= Settings.resolve) := by
  unfold profile Settings.load
  cases load tree candidates with
  | error failure => rfl
  | ok loaded =>
    cases loaded with
    | none => rfl
    | some loaded => rfl

/-- The profile of some layers comes from the settings that their tables make when they are laid
over one another; no layer leaves all settings open. -/
theorem LoadedSettings.exists_of_profile {tree : FileTree} {candidates : List Layer} {p : Profile}
    (h : profile tree candidates = .ok p) :
    ∃ tables s, (Layer.present tree candidates).mapM (Layer.read tree) = .ok tables ∧
      Settings.ofEntries? (Toml.overlayAll tables) = some s ∧ p.curves = s.curves := by
  rw [profile_eq] at h
  obtain ⟨s, hload, hresolve⟩ := bind_eq_ok_iff.mp h
  obtain ⟨tables, htables, hs⟩ := Settings.load_eq_ok_iff.mp hload
  obtain ⟨-, hread⟩ := Settings.ofLayers_eq_ok_iff.mp hs
  exact ⟨tables, s, htables, hread, Settings.curves_of_resolve hresolve⟩

end CodeQuality
