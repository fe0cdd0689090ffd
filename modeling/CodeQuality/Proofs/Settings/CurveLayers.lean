import CodeQuality.Proofs.Settings.Layering
import CodeQuality.Proofs.Settings.Readings

/-!
Which layer a curve comes from.

A layer that has a curve writes all of it but one coefficient, so laid over the curves of lower
layers it keeps its own coefficients, and only the exponent that it may leave out comes from below.
-/

namespace CodeQuality

/-- A curve that settings replace. -/
inductive CurveSlot where
  | complexity
  | size
  | duplicationLegacy
  | duplicationStrict
  deriving DecidableEq

namespace CurveSlot

def key : CurveSlot → String
  | complexity => "complexity"
  | size => "size"
  | duplicationLegacy => "duplication_legacy"
  | duplicationStrict => "duplication_strict"

-- The place of the curve in a section that is an array.
def place : CurveSlot → Nat
  | complexity => 0
  | size => 1
  | duplicationLegacy => 2
  | duplicationStrict => 3

def curve (curves : MetricCurves) : CurveSlot → Curve
  | complexity => curves.complexity
  | size => curves.size
  | duplicationLegacy => curves.duplicationLegacy
  | duplicationStrict => curves.duplicationStrict

def setting? (s : Settings) : CurveSlot → Option Curve
  | complexity => s.complexity
  | size => s.size
  | duplicationLegacy => s.duplicationLegacy
  | duplicationStrict => s.duplicationStrict

/-- What a section of curves has for a curve: the value of its key, or the item at its place. -/
def ofSection? (slot : CurveSlot) : Toml → Option Toml
  | .table entries => entries.lookup slot.key
  | .array items => items[slot.place]?
  | _ => none

/-- What a layer has for a curve. -/
def ofLayer? (slot : CurveSlot) (layer : Toml.Entries) : Option Toml :=
  (layer.lookup "curves").bind slot.ofSection?

theorem curve_settings (slot : CurveSlot) (s : Settings) :
    slot.curve s.curves = (slot.setting? s).getD (slot.curve MetricCurves.standard) := by
  cases slot <;> rfl

theorem entries_of_openFields? {layer : Toml.Entries} {c₀ c₁ c₂ c₃ c₄ : Option Toml}
    (h : Toml.openFields? Settings.curveNames (layer.lookup "curves") =
      some [c₀, c₁, c₂, c₃, c₄]) :
    complexity.ofLayer? layer = c₀ ∧ size.ofLayer? layer = c₁ ∧
      duplicationLegacy.ofLayer? layer = c₂ ∧ duplicationStrict.ofLayer? layer = c₃ := by
  unfold ofLayer?
  cases hsection : layer.lookup "curves" with
  | none =>
    rw [hsection] at h
    cases h
    exact ⟨rfl, rfl, rfl, rfl⟩
  | some v =>
    rw [hsection] at h
    cases v with
    | table entries =>
      have hfields : (Toml.table entries).fields? .whole Settings.curveNames = _ := h
      obtain ⟨-, heq⟩ := Toml.fields?_table_eq_some_iff.mp hfields
      cases heq
      exact ⟨rfl, rfl, rfl, rfl⟩
    | array items =>
      simp only [Toml.openFields?, Toml.fields?, Settings.curveNames] at h
      split at h
      next => cases h
      next hlength =>
        -- An array has an item for every field.
        have hlong : 5 ≤ items.length := by simpa using hlength
        have hitem : ∀ i < 5, some items[i]? = [c₀, c₁, c₂, c₃, c₄][i]? := by
          intro i hi
          rw [← Option.some.inj h, List.getElem?_append_left (by simp; omega)]
          simp [hi, List.getElem?_eq_getElem (show i < items.length by omega)]
        exact ⟨Option.some.inj (hitem 0 (by decide)), Option.some.inj (hitem 1 (by decide)),
          Option.some.inj (hitem 2 (by decide)), Option.some.inj (hitem 3 (by decide))⟩
    | _ => cases h

theorem openField?_ofLayer? {layer : Toml.Entries} {s : Settings}
    (h : Settings.ofEntries? layer = some s) (slot : CurveSlot) :
    Toml.openField? Curve.ofToml? (slot.ofLayer? layer) = some (slot.setting? s) := by
  obtain ⟨c₀, c₁, c₂, c₃, c₄, hfields, h₀, h₁, h₂, h₃⟩ := Settings.exists_curves_of_ofEntries? h
  obtain ⟨e₀, e₁, e₂, e₃⟩ := entries_of_openFields? hfields
  cases slot with
  | complexity => rwa [e₀]
  | size => rwa [e₁]
  | duplicationLegacy => rwa [e₂]
  | duplicationStrict => rwa [e₃]

end CurveSlot

/-! ## Curves over curves -/

open Toml (stacked showing get?)

/-- A field of values laid over one another that holds numbers is that of the highest value that
shows and has the field. -/
theorem Toml.get?_stacked_of_number {vs : List Toml} (hproper : ∀ v ∈ vs, v.Proper) {key : String}
    (hnumber : ∀ v ∈ vs, ∀ w, get? [key] v = some w → (number? w).isSome) :
    (stacked vs).bind (get? [key]) = (showing vs).findSome? (get? [key]) := by
  rw [get?_stacked hproper, stacked_of_not_isTable, List.head?_filterMap]
  intro w hw
  obtain ⟨v, hv, hget⟩ := List.mem_filterMap.mp hw
  have hisSome := hnumber v ((isPrefix_showing vs).subset hv) w hget
  cases w with
  | table entries => cases hisSome
  | _ => rfl

namespace Curve

/-- The exponent that shows in curves laid over one another, the highest first, if any is given. -/
def exponent? (entries : List Toml) : Option Float :=
  ((showing entries).findSome? (get? ["quadratic_exponent"])).bind Toml.number?

theorem ofToml?_table_iff {entries : Toml.Entries} {curve : Curve} :
    ofToml? (.table entries) = some curve ↔
      (∀ entry ∈ entries, entry.1 ∈ fieldNames) ∧
        ofFields? (fieldNames.map fun name => entries.lookup name) = some curve := by
  rw [ofToml?, Option.bind_eq_some_iff]
  constructor
  · rintro ⟨values, hvalues, hcurve⟩
    obtain ⟨hkeys, rfl⟩ := Toml.fields?_table_eq_some_iff.mp hvalues
    exact ⟨hkeys, hcurve⟩
  · rintro ⟨hkeys, hcurve⟩
    exact ⟨_, Toml.fields?_table_eq_some_iff.mpr ⟨hkeys, rfl⟩, hcurve⟩

theorem isSome_number?_of_ofToml? {v w : Toml} {key : String} (h : (ofToml? v).isSome)
    (hget : get? [key] v = some w) : (Toml.number? w).isSome := by
  obtain ⟨curve, hcurve⟩ := Option.isSome_iff_exists.mp h
  cases v with
  | table entries =>
    rw [Toml.get?_singleton_table] at hget
    obtain ⟨hkeys, hfields⟩ := ofToml?_table_iff.mp hcurve
    obtain ⟨h₁, h₂, h₃, h₄, h₅, h₆, h₇, h₈, h₉⟩ := ofFields?_eq_some_iff.mp hfields
    have hkey : key ∈ fieldNames := hkeys (key, w) (mem_of_lookup_eq_some hget)
    have hrequired {x : Float}
        (hx : requiredField Toml.number? (entries.lookup key) = some x) :
        (Toml.number? w).isSome := by
      rw [hget] at hx
      exact Option.isSome_of_eq_some hx
    have hdefaulted {d x : Float}
        (hx : defaultedField d Toml.number? (entries.lookup key) = some x) :
        (Toml.number? w).isSome := by
      rw [hget] at hx
      exact Option.isSome_of_eq_some hx
    simp only [fieldNames, List.mem_cons, List.not_mem_nil, or_false] at hkey
    rcases hkey with rfl | rfl | rfl | rfl | rfl | rfl | rfl | rfl | rfl
    exacts [hrequired h₁, hrequired h₂, hrequired h₃, hrequired h₄, hrequired h₅, hdefaulted h₆,
      hrequired h₇, hrequired h₈, hrequired h₉]
  | _ => simp [get?] at hget

section

variable {entries fields : Toml.Entries} {lower : List Toml}

theorem lookup_stacked (hproper : ∀ v ∈ .table entries :: lower, v.Proper)
    (hread : ∀ v ∈ .table entries :: lower, (ofToml? v).isSome)
    (hstacked : stacked (.table entries :: lower) = some (.table fields)) (key : String) :
    fields.lookup key = (showing (.table entries :: lower)).findSome? (get? [key]) := by
  rw [← Toml.get?_stacked_of_number hproper, hstacked, Option.bind_some,
    Toml.get?_singleton_table]
  exact fun v hv w => isSome_number?_of_ofToml? (hread v hv)

/-- What the highest entry has shows. -/
theorem lookup_stacked_of_lookup (hproper : ∀ v ∈ .table entries :: lower, v.Proper)
    (hread : ∀ v ∈ .table entries :: lower, (ofToml? v).isSome)
    (hstacked : stacked (.table entries :: lower) = some (.table fields)) {key : String} {w : Toml}
    (hw : entries.lookup key = some w) : fields.lookup key = some w := by
  rw [lookup_stacked hproper hread hstacked, showing, List.findSome?_cons,
    Toml.get?_singleton_table, hw]

theorem requiredField_stacked (hproper : ∀ v ∈ .table entries :: lower, v.Proper)
    (hread : ∀ v ∈ .table entries :: lower, (ofToml? v).isSome)
    (hstacked : stacked (.table entries :: lower) = some (.table fields)) {key : String} {x : Float}
    (hx : requiredField Toml.number? (entries.lookup key) = some x) :
    requiredField Toml.number? (fields.lookup key) = some x := by
  obtain ⟨w, hw, hnumber⟩ := Option.bind_eq_some_iff.mp hx
  rw [lookup_stacked_of_lookup hproper hread hstacked hw]
  exact hnumber

theorem exponent_stacked (hproper : ∀ v ∈ .table entries :: lower, v.Proper)
    (hread : ∀ v ∈ .table entries :: lower, (ofToml? v).isSome)
    (hstacked : stacked (.table entries :: lower) = some (.table fields))
    (hmerged : (ofToml? (.table fields)).isSome) {x : Float}
    (hx : defaultedField defaultQuadraticExponent Toml.number?
      (entries.lookup "quadratic_exponent") = some x) :
    defaultedField defaultQuadraticExponent Toml.number? (fields.lookup "quadratic_exponent") =
      some ((exponent? (.table entries :: lower)).getD x) := by
  rw [exponent?, ← lookup_stacked hproper hread hstacked]
  cases hshown : fields.lookup "quadratic_exponent" with
  | none =>
    -- What does not show is not in the highest entry either, which then has the default.
    have hopen : entries.lookup "quadratic_exponent" = none := by
      by_contra hne
      obtain ⟨w, hw⟩ := Option.ne_none_iff_exists'.mp hne
      rw [lookup_stacked_of_lookup hproper hread hstacked hw] at hshown
      cases hshown
    rw [hopen] at hx
    exact hx
  | some w =>
    have hget : get? ["quadratic_exponent"] (.table fields) = some w := by
      rw [Toml.get?_singleton_table, hshown]
    obtain ⟨y, hy⟩ := Option.isSome_iff_exists.mp (isSome_number?_of_ofToml? hmerged hget)
    rw [Option.bind_some, hy, Option.getD_some]
    exact hy

end

/-- Curves laid over one another make the highest one, but for the exponent. -/
theorem ofToml?_stacked {entry merged : Toml} {lower : List Toml} {curve curve' : Curve}
    (hproper : ∀ v ∈ entry :: lower, v.Proper)
    (hread : ∀ v ∈ entry :: lower, (ofToml? v).isSome)
    (hentry : ofToml? entry = some curve) (hstacked : stacked (entry :: lower) = some merged)
    (hmerged : ofToml? merged = some curve') :
    curve' = { curve with
      quadraticExponent := (exponent? (entry :: lower)).getD curve.quadraticExponent } := by
  cases entry with
  | table entries =>
    obtain ⟨fields, rfl⟩ : ∃ fields, merged = .table fields :=
      ⟨_, (Option.some.inj hstacked).symm⟩
    have hrequired {key : String} {x : Float}
        (hx : requiredField Toml.number? (entries.lookup key) = some x) :=
      requiredField_stacked hproper hread hstacked hx
    have hfields := (ofToml?_table_iff.mp hentry).2
    obtain ⟨h₁, h₂, h₃, h₄, h₅, h₆, h₇, h₈, h₉⟩ := ofFields?_eq_some_iff.mp hfields
    have hexponent := exponent_stacked hproper hread hstacked (Option.isSome_of_eq_some hmerged) h₆
    apply Option.some.inj
    rw [← (ofToml?_table_iff.mp hmerged).2]
    exact ofFields?_eq_some_iff.mpr
      ⟨hrequired h₁, hrequired h₂, hrequired h₃, hrequired h₄, hrequired h₅, hexponent,
        hrequired h₇, hrequired h₈, hrequired h₉⟩
  | array items =>
    have hsame : merged = .array items := (Option.some.inj hstacked).symm
    rw [hsame, hentry] at hmerged
    cases hmerged
    rfl
  | _ => cases hentry

end Curve

namespace CurveSlot

theorem ofSection?_of_isTable (slot : CurveSlot) {v : Toml} (h : v.isTable) :
    slot.ofSection? v = get? [slot.key] v := by
  cases v with
  | table entries => exact (Toml.get?_singleton_table _ _).symm
  | _ => cases h

theorem proper_ofSection? {slot : CurveSlot} {v entry : Toml} (hproper : v.Proper)
    (h : slot.ofSection? v = some entry) : entry.Proper := by
  cases v with
  | table entries => exact hproper.entries.lookup h
  | array items => exact hproper.items entry (List.mem_of_getElem? h)
  | _ => cases h

theorem bind_ofSection?_stacked (slot : CurveSlot) {sections : List Toml}
    (hproper : ∀ v ∈ sections, v.Proper) :
    (stacked sections).bind slot.ofSection? =
      stacked ((showing sections).filterMap slot.ofSection?) := by
  cases sections with
  | nil => rfl
  | cons top lower =>
    cases htop : top.isTable with
    | true =>
      have hshowing : ∀ v ∈ showing (top :: lower), slot.ofSection? v = get? [slot.key] v := by
        rw [Toml.showing_of_isTable htop]
        exact fun v hv => slot.ofSection?_of_isTable (List.mem_takeWhile_imp hv)
      rw [List.filterMap_congr hshowing, ← Toml.get?_stacked hproper, stacked, Option.bind_some,
        Option.bind_some, slot.ofSection?_of_isTable (Toml.isTable_layOver htop _)]
    | false =>
      -- Nothing shows below what is no table.
      rw [stacked, Toml.layOver_of_not_isTable htop, showing, htop, Option.bind_some]
      cases hentry : slot.ofSection? top with
      | none => simp [hentry, stacked]
      | some entry =>
        have hentryProper := proper_ofSection? (hproper top List.mem_cons_self) hentry
        simp [hentry, Toml.proper_stacked_singleton hentryProper]

/-- The entries of a curve that show when some layers, the lowest first, are laid over one another,
the highest entry first. -/
def shown (slot : CurveSlot) (tables : List Toml.Entries) : List Toml :=
  (showing (tables.reverse.filterMap (·.lookup "curves"))).filterMap slot.ofSection?

/-- The entry of the highest layer that has the curve. -/
def highest? (slot : CurveSlot) (tables : List Toml.Entries) : Option Toml :=
  tables.reverse.findSome? slot.ofLayer?

/-- Full replacement: a curve is that of the highest layer that has it, read by itself, or the
built-in one if no layer has it. -/
def Replaces (slot : CurveSlot) (tables : List Toml.Entries) (curves : MetricCurves) : Prop :=
  match slot.highest? tables with
  | none => slot.curve curves = slot.curve .standard
  | some entry => Curve.ofToml? entry = some (slot.curve curves)

/-- Where a curve comes from: the highest layer that has it, but for an exponent that it leaves
out. A section that is an array ends what shows of the sections below it, and is hidden itself
below one that is a table. -/
structure Follows (slot : CurveSlot) (tables : List Toml.Entries) (curves : MetricCurves) :
    Prop where
  builtIn : slot.highest? tables = none → slot.curve curves = slot.curve .standard
  hidden : slot.shown tables = [] → slot.curve curves = slot.curve .standard
  replaced : ∀ entry, slot.highest? tables = some entry → slot.shown tables ≠ [] →
    ∃ curve, Curve.ofToml? entry = some curve ∧
      slot.curve curves = { curve with
        quadraticExponent :=
          (Curve.exponent? (slot.shown tables)).getD curve.quadraticExponent }

theorem isPrefix_shown (slot : CurveSlot) (tables : List Toml.Entries) :
    slot.shown tables <+: tables.reverse.filterMap slot.ofLayer? := by
  have hentries : tables.reverse.filterMap slot.ofLayer? =
      (tables.reverse.filterMap (·.lookup "curves")).filterMap slot.ofSection? :=
    List.filterMap_filterMap.symm
  rw [hentries]
  exact (Toml.isPrefix_showing _).filterMap _

theorem exists_layer_of_mem_shown {slot : CurveSlot} {tables : List Toml.Entries} {entry : Toml}
    (h : entry ∈ slot.shown tables) : ∃ layer ∈ tables, slot.ofLayer? layer = some entry := by
  obtain ⟨layer, hlayer, hentry⟩ := List.mem_filterMap.mp ((slot.isPrefix_shown tables).subset h)
  exact ⟨layer, List.mem_reverse.mp hlayer, hentry⟩

theorem highest?_of_shown {slot : CurveSlot} {tables : List Toml.Entries} {entry : Toml}
    {lower : List Toml} (h : slot.shown tables = entry :: lower) :
    slot.highest? tables = some entry := by
  obtain ⟨rest, hrest⟩ := slot.isPrefix_shown tables
  rw [highest?, ← List.head?_filterMap, ← hrest, h, List.cons_append, List.head?_cons]

theorem ofLayer?_overlayAll (slot : CurveSlot) {tables : List Toml.Entries}
    (hproper : ∀ entries ∈ tables, (Toml.table entries).Proper) :
    slot.ofLayer? (Toml.overlayAll tables) = stacked (slot.shown tables) := by
  rw [ofLayer?, Toml.lookup_overlayAll fun entries h => (hproper entries h).entries.keys]
  apply bind_ofSection?_stacked
  intro v hv
  obtain ⟨entries, hentries, hlookup⟩ := List.mem_filterMap.mp hv
  exact (hproper entries (List.mem_reverse.mp hentries)).entries.lookup hlookup

theorem proper_ofLayer? {slot : CurveSlot} {layer : Toml.Entries} {entry : Toml}
    (hproper : (Toml.table layer).Proper) (h : slot.ofLayer? layer = some entry) :
    entry.Proper := by
  obtain ⟨v, hv, hentry⟩ := Option.bind_eq_some_iff.mp h
  exact proper_ofSection? (hproper.entries.lookup hv) hentry

theorem isSome_ofToml?_ofLayer? {slot : CurveSlot} {layer : Toml.Entries} {s : Settings} {v : Toml}
    (hread : Settings.ofEntries? layer = some s) (h : slot.ofLayer? layer = some v) :
    (Curve.ofToml? v).isSome := by
  have hcurve := openField?_ofLayer? hread slot
  rw [h] at hcurve
  obtain ⟨curve, hcurve, -⟩ := Option.map_eq_some_iff.mp hcurve
  exact Option.isSome_of_eq_some hcurve

theorem follows {slot : CurveSlot} {tables : List Toml.Entries} {s : Settings}
    (hproper : ∀ entries ∈ tables, (Toml.table entries).Proper)
    (hread : ∀ entries ∈ tables, ∃ s, Settings.ofEntries? entries = some s)
    (hmerged : Settings.ofEntries? (Toml.overlayAll tables) = some s) :
    slot.Follows tables s.curves := by
  have hcurve := openField?_ofLayer? hmerged slot
  rw [slot.ofLayer?_overlayAll hproper] at hcurve
  have hshownProper : ∀ v ∈ slot.shown tables, v.Proper := by
    intro v hv
    obtain ⟨layer, hlayer, hentry⟩ := exists_layer_of_mem_shown hv
    exact proper_ofLayer? (hproper layer hlayer) hentry
  have hshownRead : ∀ v ∈ slot.shown tables, (Curve.ofToml? v).isSome := by
    intro v hv
    obtain ⟨layer, hlayer, hentry⟩ := exists_layer_of_mem_shown hv
    obtain ⟨_, hs⟩ := hread layer hlayer
    exact isSome_ofToml?_ofLayer? hs hentry
  cases hshown : slot.shown tables with
  | nil =>
    rw [hshown] at hcurve
    have hopen : slot.setting? s = none := (Option.some.inj hcurve).symm
    have hstandard : slot.curve s.curves = slot.curve .standard := by
      rw [curve_settings, hopen, Option.getD_none]
    exact ⟨fun _ => hstandard, fun _ => hstandard, fun _ _ hne => absurd hshown hne⟩
  | cons entry lower =>
    rw [hshown] at hcurve hshownProper hshownRead
    obtain ⟨merged, hmerged, hsetting⟩ := Option.map_eq_some_iff.mp hcurve
    obtain ⟨curve, hentry⟩ := Option.isSome_iff_exists.mp (hshownRead entry List.mem_cons_self)
    have hresult := Curve.ofToml?_stacked hshownProper hshownRead hentry rfl hmerged
    have hhighest := highest?_of_shown hshown
    refine ⟨?_, ?_, ?_⟩
    · rw [hhighest]
      exact nofun
    · rw [hshown]
      exact nofun
    · rw [hhighest, hshown, curve_settings, ← hsetting, Option.getD_some]
      rintro _ ⟨⟩ -
      exact ⟨curve, hentry, hresult⟩

end CurveSlot

/-- Every curve of a profile follows the layers of the settings. -/
theorem LoadedSettings.profile_curves {tree : FileTree} {candidates : List Layer} {p : Profile}
    (h : profile tree candidates = .ok p) :
    ∃ tables, (Layer.present tree candidates).mapM (Layer.read tree) = .ok tables ∧
      ∀ slot : CurveSlot, slot.Follows tables p.curves := by
  obtain ⟨tables, s, htables, hmerged, hcurves⟩ := exists_of_profile h
  refine ⟨tables, htables, fun slot => ?_⟩
  rw [hcurves]
  have hlayer := exists_of_mem_of_mapM_eq_ok htables
  refine CurveSlot.follows (fun entries hentries => ?_) (fun entries hentries => ?_) hmerged
  · obtain ⟨layer, -, hread⟩ := hlayer entries hentries
    exact (Layer.of_read_eq_ok hread).1
  · obtain ⟨layer, -, hread⟩ := hlayer entries hentries
    exact (Layer.of_read_eq_ok hread).2

/-- A user's file that gives a curve with an exponent, below a repository's file that gives the same
curve without one. -/
def FileTree.exponentBelow : FileTree := fun path =>
  if path = "user.toml" then
    some (.file ("curves.complexity=\x7bexcellent_max=10,linear_max=20,quadratic_max=50," ++
      "linear_penalty=30,quadratic_penalty=70,quadratic_exponent=3," ++
      "exponential_span=50,exponential_exponent=1.8,exponential_scale=30\x7d").toUTF8)
  else if path = "./codehealth.toml" then
    some (.file ("curves.complexity=\x7bexcellent_max=12,linear_max=24,quadratic_max=60," ++
      "linear_penalty=30,quadratic_penalty=70," ++
      "exponential_span=50,exponential_exponent=1.8,exponential_scale=30\x7d").toUTF8)
  else none

def Layer.exponentBelow : List Layer := Layer.candidates "." (some "user.toml")

-- The curve of the repository has the exponent 2 by itself, and gets the one of the user.
theorem exponents_exponentBelow :
    ∃ userText repositoryText, FileTree.exponentBelow "user.toml" = some (.file userText.toUTF8) ∧
      FileTree.exponentBelow "./codehealth.toml" = some (.file repositoryText.toUTF8) ∧
      (Toml.parse? userText).any (fun user => (Toml.parse? repositoryText).any fun repository =>
        ([user, repository].all fun entries =>
          (Settings.ofEntries? entries).isSome && Toml.entryMomentsFit entries) &&
        ((CurveSlot.complexity.highest? [user, repository]).bind Curve.ofToml?).any
          (·.quadraticExponent.toBits == (2.0 : Float).toBits) &&
        (Settings.ofLayers [user, repository] >>= Settings.resolve).toOption.any
          (·.curves.complexity.quadraticExponent.toBits == (3.0 : Float).toBits)) = true := by
  refine ⟨_, _, if_pos rfl, (if_neg (by decide)).trans (if_pos rfl), ?_⟩
  -- With its characters listed a text is read at once; to decode it takes far longer.
  rw [← String.ofList_append, ← String.ofList_append, Toml.parse?_ofList,
    ← String.ofList_append, ← String.ofList_append, Toml.parse?_ofList]
  · decide +kernel
  · decide
  · decide

theorem exists_profile_exponentBelow :
    ∃ tables p, (Layer.present .exponentBelow Layer.exponentBelow).mapM
        (Layer.read .exponentBelow) = .ok tables ∧
      LoadedSettings.profile .exponentBelow Layer.exponentBelow = .ok p ∧
      ((CurveSlot.complexity.highest? tables).bind Curve.ofToml?).any
        (·.quadraticExponent.toBits == (2.0 : Float).toBits) = true ∧
      p.curves.complexity.quadraticExponent.toBits = (3.0 : Float).toBits := by
  obtain ⟨userText, repositoryText, huserFile, hrepositoryFile, h⟩ := exponents_exponentBelow
  obtain ⟨user, huser, h⟩ := (Option.any_eq_true _ _).mp h
  obtain ⟨repository, hrepository, h⟩ := (Option.any_eq_true _ _).mp h
  simp only [Bool.and_eq_true, List.all_cons, List.all_nil, Bool.and_true] at h
  obtain ⟨⟨⟨⟨huserRead, huserMoments⟩, hrepositoryRead, hrepositoryMoments⟩, htwo⟩, hprofile⟩ := h
  obtain ⟨p, hprofile, hthree⟩ := any_toOption_eq_true_iff.mp hprofile
  have hpresent : Layer.present .exponentBelow Layer.exponentBelow =
      [⟨.user, "user.toml"⟩, ⟨.repository, "./codehealth.toml"⟩] := by
    rfl
  have htables : (Layer.present .exponentBelow Layer.exponentBelow).mapM
      (Layer.read .exponentBelow) = .ok [user, repository] := by
    rw [hpresent, List.mapM_cons, List.mapM_cons,
      Layer.read_of_parse? huserFile huser huserRead huserMoments,
      Layer.read_of_parse? hrepositoryFile hrepository hrepositoryRead hrepositoryMoments]
    rfl
  refine ⟨[user, repository], p, htables, ?_, htwo, beq_iff_eq.mp hthree⟩
  rw [LoadedSettings.profile_eq, Settings.load_eq, htables]
  exact hprofile

theorem LoadedSettings.profile_curves_exponentBelow :
    ∃ p, profile .exponentBelow Layer.exponentBelow = .ok p ∧
      ∃ tables, (Layer.present .exponentBelow Layer.exponentBelow).mapM
        (Layer.read .exponentBelow) = .ok tables ∧
      ∀ slot : CurveSlot, slot.Follows tables p.curves := by
  obtain ⟨-, p, -, hprofile, -⟩ := exists_profile_exponentBelow
  exact ⟨p, hprofile, profile_curves hprofile⟩

/-- A curve is not always a full replacement: an exponent that it leaves out comes from below. -/
theorem LoadedSettings.exists_not_replaces :
    ¬ ∀ (tree : FileTree) (candidates : List Layer) (p : Profile) (tables : List Toml.Entries),
      (Layer.present tree candidates).mapM (Layer.read tree) = .ok tables →
      profile tree candidates = .ok p →
        ∀ slot : CurveSlot, slot.Replaces tables p.curves := by
  intro h
  obtain ⟨tables, p, htables, hprofile, htwo, hthree⟩ := exists_profile_exponentBelow
  have hreplaces := h _ _ p tables htables hprofile .complexity
  cases hentry : CurveSlot.complexity.highest? tables with
  | none =>
    rw [hentry] at htwo
    cases htwo
  | some entry =>
    simp only [CurveSlot.Replaces, hentry] at hreplaces
    rw [hentry, Option.bind_some, hreplaces, Option.any_some, beq_iff_eq] at htwo
    have hbits : (3.0 : Float).toBits = (2.0 : Float).toBits := hthree.symm.trans htwo
    revert hbits
    decide

end CodeQuality
