import CodeQuality.Proofs.Settings.MergedReadings
import CodeQuality.Proofs.Settings.Surplus

/-!
Which faults of layers are found, and which layer is named for them.

A layer that does not fit the schema is found when it is read, and named. An array with more items
than its section has fields passes there: it is found in the merged settings, where no layer is
named for it, and only if no higher layer covers it.
-/

namespace CodeQuality

/-! ## Reading layers in their order -/

theorem mapM_eq_ok_or_error {ε α β : Type} (f : α → Except ε β) (inputs : List α) :
    (∃ results, inputs.mapM f = .ok results ∧ inputs.map f = results.map .ok) ∨
      ∃ before a after failure, inputs = before ++ a :: after ∧ (∀ b ∈ before, (f b).isOk) ∧
        f a = .error failure ∧ inputs.mapM f = .error failure := by
  induction inputs with
  | nil => exact .inl ⟨[], rfl, rfl⟩
  | cons a rest ih =>
    rw [List.mapM_cons, List.map_cons]
    cases ha : f a with
    | error failure => exact .inr ⟨[], a, rest, failure, rfl, by simp, ha, rfl⟩
    | ok b =>
      rcases ih with ⟨results, hresults, hmap⟩ |
        ⟨before, c, after, failure, rfl, hbefore, hc, hfails⟩
      · refine .inl ⟨b :: results, ?_, by rw [hmap, List.map_cons]⟩
        rw [hresults]
        rfl
      · refine .inr ⟨a :: before, c, after, failure, rfl, ?_, hc, ?_⟩
        · exact List.forall_mem_cons.mpr ⟨by rw [ha]; rfl, hbefore⟩
        · rw [hfails]
          rfl

theorem isOk_of_map_eq {ε α β : Type} {f : α → Except ε β} {inputs : List α} {results : List β}
    (h : inputs.map f = results.map .ok) : ∀ a ∈ inputs, (f a).isOk := by
  intro a ha
  obtain ⟨b, -, hb⟩ := List.mem_map.mp (h ▸ List.mem_map_of_mem ha)
  rw [← hb]
  rfl

theorem takeWhile_append_cons_of_neg {α : Type} {p : α → Bool} {before after : List α} {a : α}
    (hbefore : ∀ b ∈ before, p b = true) (ha : ¬ p a = true) :
    (before ++ a :: after).takeWhile p = before := by
  rw [List.takeWhile_append_of_pos hbefore, List.takeWhile_cons_of_neg ha, List.append_nil]

/-- A list has one way only to be split at its first refusal. -/
theorem eq_of_append_cons_of_neg {α : Type} {p : α → Bool} {before before' after after' : List α}
    {a a' : α} (h : before ++ a :: after = before' ++ a' :: after')
    (hbefore : ∀ b ∈ before, p b = true) (ha : ¬ p a = true)
    (hbefore' : ∀ b ∈ before', p b = true) (ha' : ¬ p a' = true) : before = before' := by
  rw [← takeWhile_append_cons_of_neg hbefore ha, h, takeWhile_append_cons_of_neg hbefore' ha']

namespace Layer

/-- A layer that is read, with an array that has too many items. -/
def overflows (tree : FileTree) (layer : Layer) : Bool :=
  (layer.read tree).toOption.any fun entries =>
    (SectionShape.settings.surplus? (.table entries)).isSome

theorem overflows_of_read_eq_ok {tree : FileTree} {layer : Layer} {entries : Toml.Entries}
    (h : layer.read tree = .ok entries) :
    layer.overflows tree = (SectionShape.settings.surplus? (.table entries)).isSome := by
  rw [overflows, h]
  rfl

-- A file that holds text can only be refused as unfit.
theorem read_eq_error_of_readText {tree : FileTree} {layer : Layer} {text : String}
    (htext : tree.readText layer.path = .ok text) {failure : Failure}
    (h : layer.read tree = .error failure) : failure = .layer (.unfit layer.path) := by
  unfold Layer.read at h
  rw [htext] at h
  simp only [bind, Except.bind] at h
  split at h
  · exact (Except.error.inj h).symm
  · split at h
    · cases h
    · exact (Except.error.inj h).symm

theorem of_mapM_read_eq_ok {tree : FileTree} {layers : List Layer} {tables : List Toml.Entries}
    (h : layers.mapM (Layer.read tree) = .ok tables) :
    (∀ entries ∈ tables, (Toml.table entries).Proper) ∧
      ∀ entries ∈ tables, ∃ s, Settings.ofEntries? entries = some s := by
  have hread : ∀ entries ∈ tables, (Toml.table entries).Proper ∧
      ∃ s, Settings.ofEntries? entries = some s := by
    intro entries hentries
    obtain ⟨layer, -, hlayer⟩ := exists_of_mem_of_mapM_eq_ok h entries hentries
    exact of_read_eq_ok hlayer
  exact ⟨fun t ht => (hread t ht).1, fun t ht => (hread t ht).2⟩

theorem read_eq_of_path_eq {tree : FileTree} {layer other : Layer}
    (h : layer.path = other.path) : layer.read tree = other.read tree := by
  unfold Layer.read
  rw [h]

end Layer

/-! ## Merged settings -/

/-- Tables of layers that fit make settings unless one of them has an array with too many items
that shows. -/
theorem Settings.ofLayers_spec {tables : List Toml.Entries}
    (hproper : ∀ entries ∈ tables, (Toml.table entries).Proper)
    (hread : ∀ entries ∈ tables, ∃ s, ofEntries? entries = some s) :
    (SectionShape.Overflows tables →
      ∃ length keys, ofLayers tables = .error (.layer (.surplus length keys))) ∧
    (¬ SectionShape.Overflows tables →
      ∃ s, ofEntries? (Toml.overlayAll tables) = some s ∧ ofLayers tables = .ok s) := by
  obtain ⟨s, hs, -⟩ := exists_ofEntries?_overlayAll hproper hread
  rw [← SectionShape.surplus?_overlayAll_isSome_iff hproper, Option.not_isSome_iff_eq_none]
  refine ⟨fun h => ?_, fun h => ⟨s, hs, ofLayers_eq_ok_iff.mpr ⟨h, hs⟩⟩⟩
  obtain ⟨surplus, hsurplus⟩ := Option.isSome_iff_exists.mp h
  rw [ofLayers, LoadedSettings.ofMerged, hsurplus]
  exact ⟨_, _, rfl⟩

theorem Toml.overlayAll_singleton {entries : Entries} (hproper : (table entries).Proper) :
    overlayAll [entries] = entries := by
  have hnothing := layOver_none hproper
  rw [layOver, Toml.table.injEq] at hnothing
  exact hnothing

/-- What it takes for a table to make settings by itself. -/
theorem Settings.ofLayers_singleton_eq_ok_iff {entries : Toml.Entries} {s : Settings}
    (hproper : (Toml.table entries).Proper) :
    ofLayers [entries] = .ok s ↔
      SectionShape.settings.surplus? (.table entries) = none ∧ ofEntries? entries = some s := by
  rw [ofLayers_eq_ok_iff, Toml.overlayAll_singleton hproper]

theorem Settings.exists_ofLayers_singleton_iff {entries : Toml.Entries}
    (hproper : (Toml.table entries).Proper) (hread : ∃ s, ofEntries? entries = some s) :
    (∃ s, ofLayers [entries] = .ok s) ↔
      (SectionShape.settings.surplus? (.table entries)).isSome = false := by
  obtain ⟨s, hs⟩ := hread
  rw [← Bool.not_eq_true, Option.not_isSome_iff_eq_none]
  constructor
  · rintro ⟨_, h⟩
    exact ((ofLayers_singleton_eq_ok_iff hproper).mp h).1
  · intro h
    exact ⟨s, (ofLayers_singleton_eq_ok_iff hproper).mpr ⟨h, hs⟩⟩

namespace LoadedSettings

theorem load_eq_error_iff {tree : FileTree} {candidates : List Layer} {failure : Failure} :
    load tree candidates = .error failure ↔ Settings.load tree candidates = .error failure := by
  unfold Settings.load
  cases load tree candidates <;> simp [Except.map]

theorem exists_load_iff {tree : FileTree} {candidates : List Layer} :
    (∃ loaded, load tree candidates = .ok loaded) ↔ ∃ s, Settings.load tree candidates = .ok s := by
  unfold Settings.load
  cases load tree candidates <;> simp [Except.map]

/-- Whether a layer can be loaded as the only one. -/
def LoadsAlone (tree : FileTree) (layer : Layer) : Prop :=
  ∃ loaded, load tree [layer] = .ok loaded

/-- The rule for faults of layers: settings are loaded exactly if each layer can be loaded by
itself, and otherwise the failure names the first layer that cannot. -/
structure NamesFaults (tree : FileTree) (candidates : List Layer) : Prop where
  loads : (∃ loaded, load tree candidates = .ok loaded) ↔
    ∀ layer ∈ Layer.present tree candidates, LoadsAlone tree layer
  named : ∀ failure, load tree candidates = .error failure →
    ∃ lower layer upper, Layer.present tree candidates = lower ++ layer :: upper ∧
      (∀ l ∈ lower, LoadsAlone tree l) ∧ ¬ LoadsAlone tree layer ∧
        failure = .layer (.unfit layer.path)

theorem loadsAlone_iff {tree : FileTree} {layer : Layer} (hfile : tree.isFile layer.path = true) :
    LoadsAlone tree layer ↔ (layer.read tree).isOk ∧ layer.overflows tree = false := by
  rw [LoadsAlone, exists_load_iff, Settings.load_eq, Layer.present_singleton hfile, List.mapM_cons]
  cases hread : layer.read tree with
  | error failure => simp [bind, Except.bind, Except.isOk, Except.toBool]
  | ok entries =>
    obtain ⟨hproper, hfits⟩ := Layer.of_read_eq_ok hread
    rw [Layer.overflows_of_read_eq_ok hread, ← Settings.exists_ofLayers_singleton_iff hproper hfits]
    simp [bind, Except.bind, pure, Except.pure, Except.isOk, Except.toBool]

/-- What becomes of layers that hold text. Either one does not fit the schema, and the first of them
is named; or all fit, and only an array with too many items that shows is refused. -/
theorem load_cases {tree : FileTree} {candidates : List Layer}
    (htext : ∀ layer ∈ Layer.present tree candidates,
      ∃ text, tree.readText layer.path = .ok text) :
    (∃ lower layer upper, Layer.present tree candidates = lower ++ layer :: upper ∧
      (∀ l ∈ lower, (l.read tree).isOk) ∧ ¬ (layer.read tree).isOk ∧
        load tree candidates = .error (.layer (.unfit layer.path))) ∨
    ∃ tables, (Layer.present tree candidates).map (Layer.read tree) = tables.map .ok ∧
      (SectionShape.Overflows tables →
        ∃ length keys, load tree candidates = .error (.layer (.surplus length keys))) ∧
      (¬ SectionShape.Overflows tables → ∃ loaded, load tree candidates = .ok loaded) := by
  rcases mapM_eq_ok_or_error (Layer.read tree) (Layer.present tree candidates) with
    ⟨tables, htables, hmap⟩ | ⟨lower, layer, upper, failure, hsplit, hlower, hlayer, hfails⟩
  · obtain ⟨hproper, hreads⟩ := Layer.of_mapM_read_eq_ok htables
    obtain ⟨hover, hfit⟩ := Settings.ofLayers_spec hproper hreads
    have hload : Settings.load tree candidates = Settings.ofLayers tables := by
      rw [Settings.load_eq, htables]
      rfl
    refine .inr ⟨tables, hmap, fun h => ?_, fun h => ?_⟩
    · obtain ⟨length, keys, herror⟩ := hover h
      exact ⟨length, keys, load_eq_error_iff.mpr (hload.trans herror)⟩
    · obtain ⟨s, -, hs⟩ := hfit h
      exact exists_load_iff.mpr ⟨s, hload.trans hs⟩
  · obtain ⟨text, htext⟩ := htext layer (by rw [hsplit]; simp)
    obtain rfl := Layer.read_eq_error_of_readText htext hlayer
    refine .inl ⟨lower, layer, upper, hsplit, hlower, by rw [hlayer]; nofun, ?_⟩
    rw [load_eq_error_iff, Settings.load_eq, hfails]
    rfl

-- A layer that does not fit is named, but ahead of it there may be one that has too many items.
theorem namesFaults_iff_of_unfit {tree : FileTree} {candidates lower upper : List Layer}
    {layer : Layer} (hsplit : Layer.present tree candidates = lower ++ layer :: upper)
    (hlower : ∀ l ∈ lower, (l.read tree).isOk) (hlayer : ¬ (layer.read tree).isOk)
    (hfails : load tree candidates = .error (.layer (.unfit layer.path))) :
    NamesFaults tree candidates ↔ ∀ l ∈ lower, l.overflows tree = false := by
  have halone : ∀ l ∈ lower ++ layer :: upper,
      (LoadsAlone tree l ↔ (l.read tree).isOk ∧ l.overflows tree = false) := by
    intro l hl
    rw [← hsplit] at hl
    exact loadsAlone_iff (List.mem_filter.mp hl).2
  have hnot : ¬ LoadsAlone tree layer := fun h => hlayer ((halone layer (by simp)).mp h).1
  constructor
  · intro h l hl
    obtain ⟨before, first, after, hsplit', hbefore, hfirst, heq⟩ := h.named _ hfails
    have hpath : layer.path = first.path := by
      injection heq with heq
      injection heq
    have hfirstRead : ¬ (first.read tree).isOk := Layer.read_eq_of_path_eq hpath ▸ hlayer
    have hbeforeRead : ∀ b ∈ before, (b.read tree).isOk := fun b hb =>
      ((halone b (by rw [← hsplit, hsplit']; exact List.mem_append_left _ hb)).mp (hbefore b hb)).1
    -- Both lists are what comes before the first layer that is not read.
    have hsame : lower = before :=
      eq_of_append_cons_of_neg (hsplit.symm.trans hsplit') hlower hlayer hbeforeRead hfirstRead
    exact ((halone l (List.mem_append_left _ hl)).mp (hbefore l (hsame ▸ hl))).2
  · intro h
    refine ⟨⟨?_, fun hall => ?_⟩, fun failure hfailure => ?_⟩
    · rintro ⟨loaded, hloaded⟩
      rw [hloaded] at hfails
      cases hfails
    · rw [hsplit] at hall
      exact absurd (hall layer (by simp)) hnot
    · rw [hfails] at hfailure
      cases hfailure
      refine ⟨lower, layer, upper, hsplit, fun l hl => ?_, hnot, rfl⟩
      exact (halone l (List.mem_append_left _ hl)).mpr ⟨hlower l hl, h l hl⟩

theorem namesFaults_iff_of_fit {tree : FileTree} {candidates : List Layer}
    {tables : List Toml.Entries}
    (hmap : (Layer.present tree candidates).map (Layer.read tree) = tables.map .ok)
    (hover : SectionShape.Overflows tables →
      ∃ length keys, load tree candidates = .error (.layer (.surplus length keys)))
    (hfit : ¬ SectionShape.Overflows tables → ∃ loaded, load tree candidates = .ok loaded) :
    NamesFaults tree candidates ↔
      ∀ l ∈ Layer.present tree candidates, l.overflows tree = false := by
  have halone : ∀ l ∈ Layer.present tree candidates,
      (LoadsAlone tree l ↔ l.overflows tree = false) := by
    intro l hl
    rw [loadsAlone_iff (List.mem_filter.mp hl).2]
    exact and_iff_right (isOk_of_map_eq hmap l hl)
  constructor
  · intro h l hl
    by_cases hoverflows : SectionShape.Overflows tables
    · -- The failure names no layer.
      obtain ⟨length, keys, hfails⟩ := hover hoverflows
      obtain ⟨_, _, _, -, -, -, heq⟩ := h.named _ hfails
      cases heq
    · exact (halone l hl).mp (h.loads.mp (hfit hoverflows) l hl)
  · intro h
    have hnot : ¬ SectionShape.Overflows tables := by
      intro hoverflows
      obtain ⟨entries, hentries, hsurplus⟩ := hoverflows.exists_layer
      obtain ⟨l, hl, hentriesRead⟩ := List.mem_map.mp (hmap ▸ List.mem_map_of_mem hentries)
      rw [← Layer.overflows_of_read_eq_ok hentriesRead, h l hl] at hsurplus
      cases hsurplus
    have hloads := hfit hnot
    refine ⟨iff_of_true hloads fun l hl => (halone l hl).mpr (h l hl), fun failure hfailure => ?_⟩
    obtain ⟨loaded, hloaded⟩ := hloads
    rw [hloaded] at hfailure
    cases hfailure

/-- Layers that hold text are loaded, and faults of theirs named, by the rule exactly if no layer
ahead of the first that does not fit has an array with too many items. In any case the first layer
that does not fit is named; where all fit, loading fails only over an array with too many items that
shows, and then no layer is named. -/
theorem load_spec {tree : FileTree} {candidates : List Layer}
    (htext : ∀ layer ∈ Layer.present tree candidates,
      ∃ text, tree.readText layer.path = .ok text) :
    (NamesFaults tree candidates ↔
      ∀ layer ∈ (Layer.present tree candidates).takeWhile fun l => (l.read tree).isOk,
        layer.overflows tree = false) ∧
    ((∃ lower layer upper, Layer.present tree candidates = lower ++ layer :: upper ∧
      (∀ l ∈ lower, (l.read tree).isOk) ∧ ¬ (layer.read tree).isOk ∧
        load tree candidates = .error (.layer (.unfit layer.path))) ∨
    ∃ tables, (Layer.present tree candidates).map (Layer.read tree) = tables.map .ok ∧
      (SectionShape.Overflows tables →
        ∃ length keys, load tree candidates = .error (.layer (.surplus length keys))) ∧
      (¬ SectionShape.Overflows tables → ∃ loaded, load tree candidates = .ok loaded)) := by
  have hcases := load_cases htext
  refine ⟨?_, hcases⟩
  rcases hcases with ⟨lower, layer, upper, hsplit, hlower, hlayer, hfails⟩ |
    ⟨tables, hmap, hover, hfit⟩
  · rw [namesFaults_iff_of_unfit hsplit hlower hlayer hfails, hsplit,
      takeWhile_append_cons_of_neg hlower hlayer]
  · have hall := List.takeWhile_eq_self_iff.mpr (isOk_of_map_eq hmap)
    rw [namesFaults_iff_of_fit hmap hover hfit, hall]

end LoadedSettings

def Layer.ofUser : Layer := ⟨.user, "home/config.toml"⟩

def Layer.ofRepository : Layer := ⟨.repository, "./codehealth.toml"⟩

/-- The file of the user has an item too many, which the file of the repository covers. -/
def FileTree.surplusBelow : FileTree := fun path =>
  if path = Layer.ofUser.path then some (.file "scoring = [\"legacy\", 1]\n".toUTF8)
  else if path = Layer.ofRepository.path then some (.file "scoring = [\"strict\"]\n".toUTF8)
  else none

namespace LoadedSettings

-- Both layers are loaded together, though the first cannot be loaded alone.
theorem load_spec_surplusBelow :
    (∀ layer ∈ Layer.present .surplusBelow [.ofUser, .ofRepository],
      ∃ text, FileTree.surplusBelow.readText layer.path = .ok text) ∧
      (load .surplusBelow [.ofUser, .ofRepository]).isOk ∧
      ¬ NamesFaults .surplusBelow [.ofUser, .ofRepository] := by
  have htext : ∀ layer ∈ Layer.present .surplusBelow [.ofUser, .ofRepository],
      ∃ text, FileTree.surplusBelow.readText layer.path = .ok text := by
    simp only [← isOk_iff]
    decide +kernel
  obtain ⟨hnames, -⟩ := load_spec htext
  refine ⟨htext, by decide +kernel, fun h => ?_⟩
  have hfit := hnames.mp h .ofUser (by decide +kernel)
  revert hfit
  decide +kernel

/-- A file by itself is refused, for an item too many, with no layer named. -/
theorem exists_not_namesFaults :
    ¬ ∀ (tree : FileTree) (candidates : List Layer),
      (∀ layer ∈ Layer.present tree candidates, ∃ text, tree.readText layer.path = .ok text) →
        NamesFaults tree candidates := by
  intro h
  have hnames := h .surplusBelow [.ofUser] (by
    simp only [← isOk_iff]
    decide +kernel)
  have hfails : (match load .surplusBelow [.ofUser] with
      | .error (.layer (.surplus _ _)) => true
      | _ => false) = true := by
    decide +kernel
  split at hfails
  next hload =>
    obtain ⟨_, _, _, -, -, -, heq⟩ := hnames.named _ hload
    cases heq
  next => cases hfails

end LoadedSettings

end CodeQuality
