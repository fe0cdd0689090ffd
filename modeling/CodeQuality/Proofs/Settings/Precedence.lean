import CodeQuality.Proofs.Settings.Layering
import CodeQuality.Proofs.Settings.Readings
import Mathlib.Data.List.Induction

/-!
Which layer has the last word.

A layer covers a path of keys if it has a value there, or anything but a table on the way. What many
layers make of a path is decided by the highest one that covers it, so precedence goes leaf by leaf,
and a layer that covers nothing, or nothing anew, leaves everything as it is.
-/

namespace CodeQuality

namespace Toml

/-! ## Paths -/

/-- A value decides what lies at a path: it has something there, or anything but a table on the
way. -/
def Covers (path : List String) (v : Toml) : Prop :=
  (get? path v).isSome ∨
    ∃ way, way <+: path ∧ way ≠ path ∧ ∃ w, get? way v = some w ∧ w.isTable = false

/-- Of some layers, the lowest first, one has the value at the path, and no higher one covers it. -/
def Prevails (tables : List Entries) (path : List String) (v : Toml) : Prop :=
  ∃ lower layer upper, tables = lower ++ layer :: upper ∧ get? path (.table layer) = some v ∧
    ∀ later ∈ upper, ¬ Covers path (.table later)

theorem get?_cons_table (key : String) (path : List String) (entries : Entries) :
    get? (key :: path) (table entries) = (entries.lookup key).bind (get? path) := rfl

theorem covers_nil (v : Toml) : Covers [] v := .inl rfl

theorem covers_cons_of_not_isTable {v : Toml} (h : v.isTable = false) (key : String)
    (path : List String) : Covers (key :: path) v :=
  .inr ⟨[], List.nil_prefix, (List.cons_ne_nil _ _).symm, v, rfl, h⟩

theorem covers_cons_table_iff {key : String} {path : List String} {entries : Entries} :
    Covers (key :: path) (table entries) ↔
      ∃ w, entries.lookup key = some w ∧ Covers path w := by
  constructor
  · rintro (h | ⟨way, hway, hne, u, hu, hleaf⟩)
    · rw [get?_cons_table] at h
      obtain ⟨u, hu⟩ := Option.isSome_iff_exists.mp h
      obtain ⟨w, hw, hget⟩ := Option.bind_eq_some_iff.mp hu
      exact ⟨w, hw, .inl (Option.isSome_of_eq_some hget)⟩
    · cases way with
      | nil =>
        -- The table itself does not stand in the way.
        cases hu
        cases hleaf
      | cons first way =>
        obtain ⟨rfl, hrest⟩ := List.cons_prefix_cons.mp hway
        obtain ⟨w, hw, hu⟩ := Option.bind_eq_some_iff.mp hu
        have hne' : way ≠ path := fun heq => hne (heq ▸ rfl)
        exact ⟨w, hw, .inr ⟨way, hrest, hne', u, hu, hleaf⟩⟩
  · rintro ⟨w, hw, h | ⟨way, hway, hne, u, hu, hleaf⟩⟩
    · exact .inl (by rwa [get?_cons_table, hw])
    · refine .inr ⟨key :: way, List.cons_prefix_cons.mpr ⟨rfl, hway⟩, ?_, u, ?_, hleaf⟩
      · exact fun heq => hne (List.cons.inj heq).2
      · rwa [get?_cons_table, hw]

/-! ## One layer over another -/

theorem get?_layOver_of_covers {above : Toml} (hproper : above.Proper) {path : List String}
    (h : Covers path above) (below : Option Toml) :
    ∃ beneath, get? path (layOver below above) = (get? path above).map (layOver beneath) := by
  induction path generalizing below above with
  | nil => exact ⟨below, rfl⟩
  | cons key path ih =>
    cases above with
    | table entries =>
      obtain ⟨w, hw, hcovers⟩ := covers_cons_table_iff.mp h
      obtain ⟨beneath, hget⟩ :=
        ih (hproper.entries.lookup hw) hcovers ((tableEntries below).lookup key)
      refine ⟨beneath, ?_⟩
      rw [layOver, get?_cons_table, get?_cons_table, lookup_overlay hproper.entries.keys, hw]
      exact hget
    | _ => exact ⟨none, rfl⟩

theorem get?_layOver_of_not_covers {above : Toml} (hproper : above.Proper) {path : List String}
    (h : ¬ Covers path above) (below : Option Toml) :
    get? path (layOver below above) = below.bind (get? path) := by
  induction path generalizing below above with
  | nil => exact absurd (covers_nil above) h
  | cons key path ih =>
    cases htable : above.isTable with
    | false => exact absurd (covers_cons_of_not_isTable htable key path) h
    | true =>
      cases above with
      | table entries =>
        have hbelow : below.bind (get? (key :: path)) =
            ((tableEntries below).lookup key).bind (get? path) := by
          cases below with
          | none => rfl
          | some v => cases v <;> rfl
        rw [layOver, get?_cons_table, lookup_overlay hproper.entries.keys, hbelow]
        cases hkey : entries.lookup key with
        | none => rfl
        | some w =>
          refine ih (hproper.entries.lookup hkey) (fun hcovers => h ?_) _
          exact covers_cons_table_iff.mpr ⟨w, hkey, hcovers⟩
      | _ => cases htable

/-- A leaf at a path of a value that lies over another one is its own, or comes from below where it
does not cover the path. -/
theorem get?_layOver_eq_some_iff {above v : Toml} (hproper : above.Proper)
    (hleaf : v.isTable = false) (path : List String) (below : Option Toml) :
    get? path (layOver below above) = some v ↔
      get? path above = some v ∨ ¬ Covers path above ∧ below.bind (get? path) = some v := by
  by_cases h : Covers path above
  · obtain ⟨beneath, hget⟩ := get?_layOver_of_covers hproper h below
    rw [hget, Option.map_eq_some_iff]
    constructor
    · rintro ⟨w, hw, hover⟩
      -- Over anything a table stays a table.
      cases htable : w.isTable with
      | true =>
        have hover' := isTable_layOver htable beneath
        rw [hover, hleaf] at hover'
        cases hover'
      | false =>
        rw [layOver_of_not_isTable htable] at hover
        exact .inl (hover ▸ hw)
    · rintro (hv | ⟨hnot, -⟩)
      · exact ⟨v, hv, layOver_of_not_isTable hleaf beneath⟩
      · exact absurd h hnot
  · have hnone : get? path above = none := by
      by_contra hne
      exact h (.inl (Option.isSome_iff_ne_none.mpr hne))
    rw [get?_layOver_of_not_covers hproper h, hnone]
    simp [h]

theorem putEntry_eq_self {key : String} {v : Toml} {entries : Entries}
    (h : entries.lookup key = some v) : putEntry key v entries = entries := by
  induction entries with
  | nil => cases h
  | cons entry rest ih =>
    obtain ⟨k, w⟩ := entry
    by_cases hk : k = key
    · subst hk
      rw [List.lookup_cons_self] at h
      rw [putEntry, if_pos rfl, Option.some.inj h]
    · rw [List.lookup_cons, beq_false_of_ne (Ne.symm hk)] at h
      rw [putEntry, if_neg hk, ih h]

/-- Entries that are there already change nothing. -/
theorem overlay_eq_self {base layer : Entries}
    (h : ∀ entry ∈ layer, ∃ w, base.lookup entry.1 = some w ∧ layOver (some w) entry.2 = w) :
    overlay base layer = base := by
  induction layer with
  | nil => rfl
  | cons entry rest ih =>
    obtain ⟨⟨w, hw, hover⟩, hrest⟩ := List.forall_mem_cons.mp h
    rw [overlay, hw, hover, putEntry_eq_self hw]
    exact ih hrest

/-- A value that is laid over what it already lies over changes nothing. -/
theorem layOver_layOver {v : Toml} (hproper : v.Proper) (below : Option Toml) :
    layOver (some (layOver below v)) v = layOver below v := by
  induction hproper generalizing below with
  | @table entries hkeys hvalues ih =>
    rw [layOver, layOver, tableEntries, overlay_eq_self]
    intro entry hentry
    refine ⟨layOver ((tableEntries below).lookup entry.1) entry.2, ?_, ih entry hentry _⟩
    rw [lookup_overlay hkeys, lookup_eq_some_of_mem hkeys hentry]
  | _ => rfl

/-! ## Many layers -/

theorem overlayAll_concat (tables : List Entries) (top : Entries) :
    overlayAll (tables ++ [top]) = overlay (overlayAll tables) top := by
  simp [overlayAll]

theorem table_overlayAll_concat (tables : List Entries) (top : Entries) :
    table (overlayAll (tables ++ [top])) =
      layOver (some (table (overlayAll tables))) (table top) := by
  rw [overlayAll_concat, layOver, tableEntries]

theorem prevails_concat_iff {tables : List Entries} {top : Entries} {path : List String}
    {v : Toml} :
    Prevails (tables ++ [top]) path v ↔
      get? path (table top) = some v ∨ ¬ Covers path (table top) ∧ Prevails tables path v := by
  constructor
  · rintro ⟨lower, layer, upper, heq, hget, hupper⟩
    rcases List.eq_nil_or_concat upper with rfl | ⟨upper, last, rfl⟩
    · obtain ⟨-, hlast⟩ := List.append_inj' heq rfl
      cases hlast
      exact .inl hget
    · rw [List.concat_eq_append] at heq hupper
      rw [← List.cons_append, ← List.append_assoc] at heq
      obtain ⟨rfl, hlast⟩ := List.append_inj' heq rfl
      cases hlast
      refine .inr ⟨hupper _ (by simp), lower, layer, upper, rfl, hget, fun later hlater => ?_⟩
      exact hupper later (List.mem_append_left _ hlater)
  · rintro (hget | ⟨htop, lower, layer, upper, rfl, hget, hupper⟩)
    · exact ⟨tables, top, [], rfl, hget, by simp⟩
    · refine ⟨lower, layer, upper ++ [top], by simp, hget, fun later hlater => ?_⟩
      rcases List.mem_append.mp hlater with hlater | hlater
      · exact hupper later hlater
      · rwa [List.mem_singleton.mp hlater]

/-- What is a leaf of merged layers is the leaf of the highest layer that covers its path. -/
theorem get?_overlayAll_eq_some_iff {tables : List Entries}
    (hproper : ∀ entries ∈ tables, (table entries).Proper) (path : List String) {v : Toml}
    (hleaf : v.isTable = false) :
    get? path (table (overlayAll tables)) = some v ↔ Prevails tables path v := by
  induction tables using List.reverseRecOn with
  | nil =>
    constructor
    · intro hget
      cases path with
      | nil =>
        cases hget
        cases hleaf
      | cons key path => cases hget
    · rintro ⟨lower, layer, upper, heq, -⟩
      simp at heq
  | append_singleton tables top ih =>
    have hlower : ∀ entries ∈ tables, (table entries).Proper :=
      fun entries hentries => hproper entries (List.mem_append_left _ hentries)
    have htop : (table top).Proper := hproper top (by simp)
    rw [table_overlayAll_concat, get?_layOver_eq_some_iff htop hleaf, prevails_concat_iff,
      Option.bind_some, ih hlower]

theorem overlayAll_insert_nil (lower upper : List Entries) :
    overlayAll (lower ++ [] :: upper) = overlayAll (lower ++ upper) := by
  simp [overlayAll, overlay]

theorem overlayAll_concat_concat {top : Entries} (hproper : (table top).Proper)
    (tables : List Entries) :
    overlayAll (tables ++ [top, top]) = overlayAll (tables ++ [top]) := by
  have htwice := layOver_layOver hproper (some (table (overlayAll tables)))
  rw [layOver, layOver, tableEntries, tableEntries, Toml.table.injEq] at htwice
  rw [overlayAll_concat, ← htwice, ← overlayAll_concat, ← overlayAll_concat, List.append_assoc]
  rfl

end Toml

/-! ## Files -/

theorem Layer.isFile_of_read_eq_ok {tree : FileTree} {layer : Layer} {entries : Toml.Entries}
    (h : layer.read tree = .ok entries) : tree.isFile layer.path = true := by
  obtain ⟨text, htext, -⟩ := bind_eq_ok_iff.mp h
  unfold FileTree.readText at htext
  unfold FileTree.isFile
  split at htext
  next => cases htext
  next => cases htext
  next => cases htext
  next hfile => rw [hfile]

theorem Layer.present_append (tree : FileTree) (lower upper : List Layer) :
    present tree (lower ++ upper) = present tree lower ++ present tree upper :=
  List.filter_append ..

theorem Layer.present_singleton {tree : FileTree} {layer : Layer}
    (h : tree.isFile layer.path = true) : present tree [layer] = [layer] :=
  List.filter_cons_of_pos h

theorem Layer.present_cons_of_read_eq_ok {tree : FileTree} {layer : Layer} {entries : Toml.Entries}
    (h : layer.read tree = .ok entries) (upper : List Layer) :
    present tree (layer :: upper) = layer :: present tree upper :=
  List.filter_cons_of_pos (Layer.isFile_of_read_eq_ok h)

/-- A layer that sets nothing changes nothing, wherever it lies. -/
theorem Settings.load_insert_empty {tree : FileTree} {layer : Layer} (h : layer.read tree = .ok [])
    (lower upper : List Layer) :
    load tree (lower ++ layer :: upper) = load tree (lower ++ upper) := by
  rw [load_eq, load_eq, Layer.present_append, Layer.present_append,
    Layer.present_cons_of_read_eq_ok h, List.mapM_append, List.mapM_append, List.mapM_cons, h]
  cases (Layer.present tree lower).mapM (Layer.read tree) with
  | error failure => rfl
  | ok lowerTables =>
    cases (Layer.present tree upper).mapM (Layer.read tree) with
    | error failure => rfl
    | ok upperTables =>
      have hmerged := Toml.overlayAll_insert_nil lowerTables upperTables
      simp only [bind, Except.bind, pure, Except.pure, ofLayers, hmerged]

/-- A layer that holds the same as the one right below it changes nothing. -/
theorem Settings.load_repeat_last {tree : FileTree} {last again : Layer} {entries : Toml.Entries}
    (hlast : last.read tree = .ok entries) (hagain : again.read tree = .ok entries)
    (lower : List Layer) :
    load tree (lower ++ [last, again]) = load tree (lower ++ [last]) := by
  rw [load_eq, load_eq, Layer.present_append, Layer.present_append,
    Layer.present_cons_of_read_eq_ok hlast, Layer.present_cons_of_read_eq_ok hlast,
    Layer.present_cons_of_read_eq_ok hagain, List.mapM_append, List.mapM_append, List.mapM_cons,
    List.mapM_cons, List.mapM_cons, hlast, hagain]
  cases (Layer.present tree lower).mapM (Layer.read tree) with
  | error failure => rfl
  | ok lowerTables =>
    have hmerged := Toml.overlayAll_concat_concat (Layer.of_read_eq_ok hlast).1 lowerTables
    simp only [bind, Except.bind, pure, Except.pure, ofLayers, Layer.present, List.filter_nil,
      List.mapM_nil, hmerged]

theorem LoadedSettings.profile_of_present_eq_nil {tree : FileTree} {candidates : List Layer}
    (h : Layer.present tree candidates = []) :
    profile tree candidates = .ok Profile.standard := by
  rw [profile_eq, Settings.load_eq, h]
  rfl

/-- Precedence goes leaf by leaf. A leaf of merged tables is that of the highest layer that covers
its path; a layer that sets nothing, or what the layer right below it sets, changes neither the
merged table nor the profile, and by itself it makes the profile of no layer at all. -/
theorem LoadedSettings.leaf_precedence {tables : List Toml.Entries}
    (hproper : ∀ entries ∈ tables, (Toml.table entries).Proper) :
    (∀ path v, v.isTable = false →
      (Toml.get? path (.table (Toml.overlayAll tables)) = some v ↔
        Toml.Prevails tables path v)) ∧
    (∀ lower upper, tables = lower ++ upper →
      Toml.overlayAll (lower ++ [] :: upper) = Toml.overlayAll tables) ∧
    (∀ last, tables.getLast? = some last →
      Toml.overlayAll (tables ++ [last]) = Toml.overlayAll tables) ∧
    (∀ (tree : FileTree) (layer : Layer), layer.read tree = .ok [] → ∀ lower upper,
      profile tree (lower ++ layer :: upper) = profile tree (lower ++ upper)) ∧
    (∀ (tree : FileTree) (last again : Layer) (entries : Toml.Entries),
      last.read tree = .ok entries → again.read tree = .ok entries → ∀ lower,
      profile tree (lower ++ [last, again]) = profile tree (lower ++ [last])) ∧
    ∀ (tree : FileTree) (candidates : List Layer),
      (Layer.present tree candidates = [] → profile tree candidates = .ok Profile.standard) ∧
      ∀ layer : Layer, layer.read tree = .ok [] → profile tree [layer] = .ok Profile.standard := by
  refine ⟨fun path v hleaf => Toml.get?_overlayAll_eq_some_iff hproper path hleaf,
    ?_, ?_, ?_, ?_, fun tree candidates => ⟨profile_of_present_eq_nil, ?_⟩⟩
  · rintro lower upper rfl
    exact Toml.overlayAll_insert_nil lower upper
  · intro last hlast
    obtain ⟨lower, rfl⟩ := List.getLast?_eq_some_iff.mp hlast
    have htop : (Toml.table last).Proper := hproper last (by simp)
    rw [List.append_assoc]
    exact Toml.overlayAll_concat_concat htop lower
  · intro tree layer hread lower upper
    rw [profile_eq, profile_eq, Settings.load_insert_empty hread]
  · intro tree last again entries hlast hagain lower
    rw [profile_eq, profile_eq, Settings.load_repeat_last hlast hagain]
  · intro layer hread
    have hsame := Settings.load_insert_empty hread [] []
    rw [profile_eq, ← List.nil_append [layer], hsame, ← profile_eq]
    exact profile_of_present_eq_nil rfl

/-- Weights of issues as a table, as an array above it and as a table again. -/
def Toml.weightsTwiceReplaced : List Toml.Entries :=
  [[("issues", .table [("weights", .table [("high", .integer 9), ("low", .integer 4)])])],
   [("issues", .table [("weights", .array [.integer 1, .integer 2, .integer 3, .integer 4])])],
   [("issues", .table [("weights", .table [("low", .integer 7)])])]]

def FileTree.emptyLayer : FileTree := fun path =>
  if path = "./codehealth.toml" then some (.file "# nothing\n".toUTF8) else none

theorem proper_weightsTwiceReplaced :
    ∀ entries ∈ Toml.weightsTwiceReplaced, (Toml.table entries).Proper := by
  have table_singleton {key : String} {v : Toml} (h : v.Proper) :
      (Toml.table [(key, v)]).Proper :=
    .table (by simp) (by simpa using h)
  have hweights : (Toml.table [("high", .integer 9), ("low", .integer 4)]).Proper :=
    .table (by decide) (by simp [Toml.Proper.integer])
  have hitems : (Toml.array [.integer 1, .integer 2, .integer 3, .integer 4]).Proper :=
    .array (by simp [Toml.Proper.integer])
  simp only [Toml.weightsTwiceReplaced, List.forall_mem_cons]
  exact ⟨table_singleton (table_singleton hweights), table_singleton (table_singleton hitems),
    table_singleton (table_singleton (table_singleton .integer)), by simp⟩

theorem read_emptyLayer :
    Layer.read .emptyLayer ⟨.repository, "./codehealth.toml"⟩ = .ok [] := by
  have hany : (Layer.read .emptyLayer ⟨.repository, "./codehealth.toml"⟩).toOption.any
      List.isEmpty = true := by
    decide
  obtain ⟨entries, hread, hnil⟩ := any_toOption_eq_true_iff.mp hany
  rw [hread, List.isEmpty_iff.mp hnil]

-- The weight of the lowest layer is gone, since the array lies between.
theorem LoadedSettings.leaf_precedence_weightsTwiceReplaced :
    (∀ entries ∈ Toml.weightsTwiceReplaced, (Toml.table entries).Proper) ∧
      Toml.Prevails Toml.weightsTwiceReplaced ["issues", "weights", "low"] (.integer 7) ∧
      ¬ Toml.Prevails Toml.weightsTwiceReplaced ["issues", "weights", "high"] (.integer 9) ∧
      Layer.read .emptyLayer ⟨.repository, "./codehealth.toml"⟩ = .ok [] ∧
      profile .emptyLayer [⟨.repository, "./codehealth.toml"⟩] = .ok Profile.standard := by
  obtain ⟨hleaf, -, -, -, -, hempty⟩ := leaf_precedence proper_weightsTwiceReplaced
  refine ⟨proper_weightsTwiceReplaced, (hleaf _ _ rfl).mp rfl, fun hhigh => ?_, read_emptyLayer,
    (hempty _ []).2 _ read_emptyLayer⟩
  have hget := (hleaf _ _ rfl).mpr hhigh
  cases hget

end CodeQuality
