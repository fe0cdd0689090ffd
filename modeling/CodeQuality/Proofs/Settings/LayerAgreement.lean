import CodeQuality.Proofs.Settings.LayerFaults
import CodeQuality.Proofs.Settings.Resolution

/-!
Layers that are good by themselves.

Together they are always loaded, and they make a profile unless one of them sets a scheme and one of
them shares of its own. The merged settings then have both, and no layer is preferred.
-/

namespace CodeQuality

/-! ## Paths of merged layers -/

/-- There is something at a path of merged layers if there is in one of them, provided that no layer
has anything but a table on the way. -/
theorem Toml.isSome_get?_overlayAll_iff {tables : List Entries} {key : String}
    {path : List String} (hproper : ∀ entries ∈ tables, (table entries).Proper)
    (hopen : ∀ entries ∈ tables, Covers (key :: path) (table entries) →
      (get? (key :: path) (table entries)).isSome) :
    (get? (key :: path) (table (overlayAll tables))).isSome ↔
      ∃ entries ∈ tables, (get? (key :: path) (table entries)).isSome := by
  induction tables using List.reverseRecOn with
  | nil => simp [overlayAll, get?_cons_table]
  | append_singleton lower top ih =>
    have htop : (table top).Proper := hproper top (by simp)
    rw [table_overlayAll_concat]
    simp only [List.mem_append, List.mem_singleton, or_and_right, exists_or, exists_eq_left]
    by_cases hcovers : Covers (key :: path) (table top)
    · obtain ⟨beneath, hget⟩ :=
        get?_layOver_of_covers htop hcovers (some (table (overlayAll lower)))
      have hsome := hopen top (by simp) hcovers
      rw [hget, Option.isSome_map]
      exact iff_of_true hsome (.inr hsome)
    · have hnone : ¬ (get? (key :: path) (table top)).isSome := fun h => hcovers (.inl h)
      rw [get?_layOver_of_not_covers htop hcovers, Option.bind_some,
        ih (fun t ht => hproper t (List.mem_append_left _ ht))
          (fun t ht => hopen t (List.mem_append_left _ ht)), or_iff_left hnone]

theorem Toml.isSome_get?_of_covers {entries : Entries} {key field : String}
    (htable : ∀ v, entries.lookup key = some v → v.isTable)
    (h : Covers [key, field] (table entries)) : (get? [key, field] (table entries)).isSome := by
  obtain ⟨v, hv, hcovers⟩ := covers_cons_table_iff.mp h
  have hvTable := htable v hv
  cases v with
  | table inner =>
    obtain ⟨w, hw, -⟩ := covers_cons_table_iff.mp hcovers
    simp [hv, hw, get?]
  | _ => cases hvTable

namespace Settings

/-! ## Scheme and shares -/

theorem isSome_of_openField? {α : Type} {read : Toml → Option α} {v : Option Toml} {x : Option α}
    (h : Toml.openField? read v = some x) : x.isSome = v.isSome := by
  cases v with
  | none =>
    cases h
    rfl
  | some v =>
    obtain ⟨a, -, rfl⟩ := Option.map_eq_some_iff.mp h
    rfl

-- An array is only read as a whole if it has an item for each field.
theorem isSome_of_fields?_array {names : List String} {items : List Toml}
    {fields : List (Option Toml)} (h : (Toml.array items).fields? .whole names = some fields) :
    ∀ a ∈ fields, a.isSome := by
  rw [Toml.fields?] at h
  split at h
  · cases h
  next hlength =>
    have hfull : names.length - items.length = 0 := by
      rw [not_and, not_lt] at hlength
      exact Nat.sub_eq_zero_of_le (hlength rfl)
    cases h
    intro a ha
    rw [hfull, List.replicate_zero, List.append_nil] at ha
    obtain ⟨item, -, rfl⟩ := List.mem_map.mp ha
    rfl

/-- A section on the weighting that is a table sets what it has a key for; written as an array it
sets both. -/
theorem ReadFrom.isSome_weighting {root : Toml.Entries} {s : Settings} (h : ReadFrom root s) :
    (∀ v, root.lookup "aggregation" = some v → v.isTable) ∧
        s.scheme.isSome = (Toml.get? ["aggregation", "scheme"] (.table root)).isSome ∧
        s.shares.isSome = (Toml.get? ["aggregation", "weights"] (.table root)).isSome ∨
      (∃ items, Toml.get? ["aggregation"] (.table root) = some (.array items)) ∧
        s.scheme.isSome ∧ s.shares.isSome := by
  obtain ⟨fields, hfields, hread⟩ := Option.bind_eq_some_iff.mp h.aggregation
  obtain ⟨scheme, shares, rfl, hscheme, hshares⟩ := ofAggregation?_eq_some_iff.mp hread
  rw [isSome_of_openField? hscheme, isSome_of_openField? hshares]
  simp only [Toml.get?_cons_table]
  cases hsection : root.lookup "aggregation" with
  | none =>
    rw [hsection] at hfields
    cases hfields
    exact .inl ⟨nofun, rfl, rfl⟩
  | some v =>
    rw [hsection, Toml.openFields?] at hfields
    cases v with
    | table entries =>
      obtain ⟨-, heq⟩ := Toml.fields?_table_eq_some_iff.mp hfields
      cases heq
      refine .inl ⟨fun v hv => ?_, ?_, ?_⟩
      · cases hv
        rfl
      · simp [Toml.get?]
      · simp [Toml.get?]
    | array items =>
      have hitems := isSome_of_fields?_array hfields
      exact .inr ⟨⟨items, rfl⟩, hitems scheme (by simp), hitems shares (by simp)⟩
    | _ => cases hfields

/-- Tables laid over one another set what some table sets, if none has the section as an array. -/
theorem isSome_weighting_overlayAll {tables : List Toml.Entries} {s : Settings}
    (hproper : ∀ entries ∈ tables, (Toml.table entries).Proper)
    (htables : ∀ entries ∈ tables, ∀ v, entries.lookup "aggregation" = some v → v.isTable)
    (hs : ofEntries? (Toml.overlayAll tables) = some s) :
    (s.scheme.isSome ↔ ∃ entries ∈ tables,
      (Toml.get? ["aggregation", "scheme"] (.table entries)).isSome) ∧
    (s.shares.isSome ↔ ∃ entries ∈ tables,
      (Toml.get? ["aggregation", "weights"] (.table entries)).isSome) := by
  have hsets {field : String} :
      (Toml.get? ["aggregation", field] (.table (Toml.overlayAll tables))).isSome ↔
        ∃ entries ∈ tables, (Toml.get? ["aggregation", field] (.table entries)).isSome :=
    Toml.isSome_get?_overlayAll_iff hproper fun entries hentries =>
      Toml.isSome_get?_of_covers (htables entries hentries)
  rcases (readFrom_of_ofEntries? hs).isSome_weighting with
    ⟨-, hscheme, hshares⟩ | ⟨⟨items, harray⟩, -⟩
  · rw [hscheme, hshares]
    exact ⟨hsets, hsets⟩
  · -- An array in the merged table is the array of a layer.
    obtain ⟨lower, layer, upper, rfl, hget, -⟩ :=
      (Toml.get?_overlayAll_eq_some_iff hproper _ rfl).mp harray
    obtain ⟨v, hv, heq⟩ := Option.bind_eq_some_iff.mp hget
    cases heq
    cases htables layer (by simp) _ hv

/-- Tables that each make a profile by themselves make settings that are good one by one, and that
set what some table sets. -/
theorem ofLayers_of_each {tables : List Toml.Entries}
    (hproper : ∀ entries ∈ tables, (Toml.table entries).Proper)
    (heach : ∀ entries ∈ tables, ∃ s p, ofLayers [entries] = .ok s ∧ s.resolve = .ok p) :
    ∃ s, ofLayers tables = .ok s ∧ s.Good ∧
      (s.scheme.isSome ↔ ∃ entries ∈ tables,
        (Toml.get? ["aggregation", "scheme"] (.table entries)).isSome) ∧
      (s.shares.isSome ↔ ∃ entries ∈ tables,
        (Toml.get? ["aggregation", "weights"] (.table entries)).isSome) := by
  have hgood : ∀ entries ∈ tables, SectionShape.settings.surplus? (.table entries) = none ∧
      ∃ s, ofEntries? entries = some s ∧ s.Good ∧ ¬ (s.scheme.isSome ∧ s.shares.isSome) := by
    intro entries hentries
    obtain ⟨s, p, hs, hp⟩ := heach entries hentries
    obtain ⟨hsurplus, hread⟩ := (ofLayers_singleton_eq_ok_iff (hproper entries hentries)).mp hs
    exact ⟨hsurplus, s, hread, s.exists_resolve_iff.mp ⟨p, hp⟩⟩
  have hnoSurplus : ¬ SectionShape.Overflows tables := by
    intro h
    obtain ⟨entries, hentries, hsurplus⟩ := h.exists_layer
    rw [(hgood entries hentries).1] at hsurplus
    cases hsurplus
  have hreads : ∀ entries ∈ tables, ∃ s, ofEntries? entries = some s := fun entries hentries =>
    (hgood entries hentries).2.imp fun _ h => h.1
  obtain ⟨s, hs, hload⟩ := (ofLayers_spec hproper hreads).2 hnoSurplus
  obtain ⟨z, hz, hmergedGood⟩ := exists_ofEntries?_overlayAll hproper hreads
  rw [hs] at hz
  obtain rfl := Option.some.inj hz
  -- No layer by itself has the section as an array, so all that have it have a table.
  have htables : ∀ entries ∈ tables, ∀ v, entries.lookup "aggregation" = some v → v.isTable := by
    intro entries hentries
    obtain ⟨-, t, ht, -, hboth⟩ := hgood entries hentries
    rcases (readFrom_of_ofEntries? ht).isSome_weighting with ⟨htable, -⟩ | ⟨-, h⟩
    · exact htable
    · exact absurd h hboth
  refine ⟨s, hload, hmergedGood fun entries hentries t ht => ?_,
    isSome_weighting_overlayAll hproper htables hs⟩
  obtain ⟨-, t', ht', hgood, -⟩ := hgood entries hentries
  rw [ht] at ht'
  cases ht'
  exact hgood

end Settings

/-! ## Layers that agree -/

/-- A layer that is read has something at a path. -/
def Layer.sets (tree : FileTree) (path : List String) (layer : Layer) : Bool :=
  (layer.read tree).toOption.any fun entries => (Toml.get? path (.table entries)).isSome

/-- One layer sets a scheme, and one sets shares of its own. -/
def Layer.Disagree (tree : FileTree) (layers : List Layer) : Prop :=
  (∃ layer ∈ layers, layer.sets tree ["aggregation", "scheme"]) ∧
    ∃ layer ∈ layers, layer.sets tree ["aggregation", "weights"]

theorem Layer.exists_sets_iff {tree : FileTree} {layers : List Layer} {tables : List Toml.Entries}
    (hmap : layers.map (Layer.read tree) = tables.map .ok) (path : List String) :
    (∃ layer ∈ layers, layer.sets tree path = true) ↔
      ∃ entries ∈ tables, (Toml.get? path (.table entries)).isSome := by
  constructor
  · rintro ⟨layer, hlayer, hsets⟩
    obtain ⟨entries, hentries, heq⟩ := List.mem_map.mp (hmap ▸ List.mem_map_of_mem hlayer)
    rw [sets, ← heq] at hsets
    exact ⟨entries, hentries, hsets⟩
  · rintro ⟨entries, hentries, hsome⟩
    obtain ⟨layer, hlayer, heq⟩ := List.mem_map.mp (hmap ▸ List.mem_map_of_mem hentries)
    exact ⟨layer, hlayer, by rw [sets, heq]; exact hsome⟩

namespace LoadedSettings

theorem of_profile_singleton {tree : FileTree} {layer : Layer} {p : Profile}
    (hfile : tree.isFile layer.path = true) (h : profile tree [layer] = .ok p) :
    ∃ entries s, layer.read tree = .ok entries ∧ Settings.ofLayers [entries] = .ok s ∧
      s.resolve = .ok p := by
  rw [profile_eq] at h
  obtain ⟨s, hload, hresolve⟩ := bind_eq_ok_iff.mp h
  obtain ⟨tables, htables, hs⟩ := Settings.load_eq_ok_iff.mp hload
  rw [Layer.present_singleton hfile, List.mapM_cons] at htables
  obtain ⟨entries, hread, htables⟩ := bind_eq_ok_iff.mp htables
  cases htables
  exact ⟨entries, s, hread, hs, hresolve⟩

/-- Layers that each make a profile by themselves are loaded together. They also make a profile
together, unless one of them sets a scheme and one of them shares of its own: then the failure says
that the two exclude each other. -/
theorem profile_of_each {tree : FileTree} {candidates : List Layer}
    (heach : ∀ layer ∈ Layer.present tree candidates, ∃ p, profile tree [layer] = .ok p) :
    (∃ loaded, load tree candidates = .ok loaded) ∧
    (Layer.Disagree tree (Layer.present tree candidates) →
      profile tree candidates = .error (.weighting .schemeAndShares)) ∧
    (¬ Layer.Disagree tree (Layer.present tree candidates) →
      ∃ p, profile tree candidates = .ok p) := by
  have hlayers : ∀ layer ∈ Layer.present tree candidates, ∃ entries s p,
      layer.read tree = .ok entries ∧ Settings.ofLayers [entries] = .ok s ∧ s.resolve = .ok p := by
    intro layer hlayer
    obtain ⟨p, hp⟩ := heach layer hlayer
    obtain ⟨entries, s, h⟩ := of_profile_singleton (List.mem_filter.mp hlayer).2 hp
    exact ⟨entries, s, p, h⟩
  rcases mapM_eq_ok_or_error (Layer.read tree) (Layer.present tree candidates) with
    ⟨tables, htables, hmap⟩ | ⟨lower, layer, upper, failure, hsplit, -, hlayer, -⟩
  · obtain ⟨s, hs, hgood, hscheme, hshares⟩ := Settings.ofLayers_of_each
      (Layer.of_mapM_read_eq_ok htables).1 (fun entries hentries => by
        obtain ⟨layer, hlayer, hread⟩ := exists_of_mem_of_mapM_eq_ok htables entries hentries
        obtain ⟨entries', s, p, hread', h⟩ := hlayers layer hlayer
        rw [hread] at hread'
        cases hread'
        exact ⟨s, p, h⟩)
    have hload := Settings.load_eq_ok_iff.mpr ⟨tables, htables, hs⟩
    rw [Layer.Disagree, Layer.exists_sets_iff hmap, Layer.exists_sets_iff hmap, ← hscheme,
      ← hshares, profile_eq, hload]
    refine ⟨exists_load_iff.mpr ⟨s, hload⟩, fun h => hgood.resolve_of_both h.1 h.2, fun h => ?_⟩
    exact s.exists_resolve_iff.mpr ⟨hgood, h⟩
  · obtain ⟨entries, _, _, hread, -⟩ := hlayers layer (by rw [hsplit]; simp)
    rw [hlayer] at hread
    cases hread

end LoadedSettings

/-- The user asks for a scheme and the repository for shares of its own. -/
def FileTree.schemeBelowShares : FileTree := fun path =>
  if path = Layer.ofUser.path then some (.file "aggregation.scheme = \"v1\"\n".toUTF8)
  else if path = Layer.ofRepository.path then
    some (.file ("[aggregation.weights]\ncomplexity = 0.5\nmaintainability = 0.25\n" ++
      "duplication = 0.25\n").toUTF8)
  else none

namespace LoadedSettings

theorem exists_profile_schemeBelowShares :
    ∀ layer ∈ Layer.present .schemeBelowShares [.ofUser, .ofRepository],
      ∃ p, profile .schemeBelowShares [layer] = .ok p := by
  simp only [← isOk_iff]
  decide +kernel

theorem profile_of_each_schemeBelowShares :
    (∀ layer ∈ Layer.present .schemeBelowShares [.ofUser, .ofRepository],
      ∃ p, profile .schemeBelowShares [layer] = .ok p) ∧
      (∃ loaded, load .schemeBelowShares [.ofUser, .ofRepository] = .ok loaded) ∧
      profile .schemeBelowShares [.ofUser, .ofRepository] =
        .error (.weighting .schemeAndShares) := by
  obtain ⟨hloads, hboth, -⟩ := profile_of_each exists_profile_schemeBelowShares
  have hdisagree : Layer.Disagree .schemeBelowShares
      (Layer.present .schemeBelowShares [.ofUser, .ofRepository]) :=
    ⟨by decide +kernel, by decide +kernel⟩
  exact ⟨exists_profile_schemeBelowShares, hloads, hboth hdisagree⟩

/-- Layers that each make a profile may make none together. -/
theorem exists_not_profile_of_each :
    ¬ ∀ (tree : FileTree) (candidates : List Layer),
      (∀ layer ∈ Layer.present tree candidates, ∃ p, profile tree [layer] = .ok p) →
        (∃ loaded, load tree candidates = .ok loaded) ∧ ∃ p, profile tree candidates = .ok p := by
  intro h
  obtain ⟨-, hprofile⟩ := h _ _ exists_profile_schemeBelowShares
  rw [← isOk_iff] at hprofile
  revert hprofile
  decide +kernel

end LoadedSettings

end CodeQuality
