import CodeQuality.Toml.Document
import Mathlib.Data.List.Nodup
import Mathlib.Tactic.SplitIfs

/-!
The keys of a table are distinct.

Tables come about by setting one key after the other, and a key that is set again keeps its place.
So in all that a text is read as, at every depth, each key of a table has one value.
-/

namespace CodeQuality

/-! ## Entries -/

/-- Entries with distinct keys, all of whose values have a property. -/
structure Distinct {α : Type} (p : α → Prop) (entries : List (String × α)) : Prop where
  keys : (entries.map Prod.fst).Nodup
  values : ∀ entry ∈ entries, p entry.2

section

variable {α : Type} {p : α → Prop} {key : String} {value : α} {entries : List (String × α)}

theorem map_fst_putEntry (key : String) (value : α) (entries : List (String × α)) :
    (putEntry key value entries).map Prod.fst =
      if key ∈ entries.map Prod.fst then entries.map Prod.fst
      else entries.map Prod.fst ++ [key] := by
  induction entries with
  | nil => simp [putEntry]
  | cons entry rest ih =>
    obtain ⟨k, v⟩ := entry
    by_cases hk : k = key
    · simp [putEntry, hk]
    · simp only [putEntry, if_neg hk, List.map_cons, ih, List.mem_cons, Ne.symm hk, false_or]
      split <;> rfl

theorem mem_putEntry {entry : String × α} (h : entry ∈ putEntry key value entries) :
    entry = (key, value) ∨ entry ∈ entries := by
  induction entries with
  | nil => simpa [putEntry] using h
  | cons first rest ih =>
    obtain ⟨k, v⟩ := first
    by_cases hk : k = key
    · simp only [putEntry, if_pos hk, List.mem_cons] at h
      exact h.imp_right (List.mem_cons_of_mem _)
    · simp only [putEntry, if_neg hk, List.mem_cons] at h
      rcases h with rfl | h
      · exact .inr List.mem_cons_self
      · exact (ih h).imp_right (List.mem_cons_of_mem _)

theorem putEntry_eq_append (h : key ∉ entries.map Prod.fst) :
    putEntry key value entries = entries ++ [(key, value)] := by
  induction entries with
  | nil => rfl
  | cons entry rest ih =>
    obtain ⟨k, v⟩ := entry
    simp only [List.map_cons, List.mem_cons, not_or] at h
    simp [putEntry, Ne.symm h.1, ih h.2]

theorem lookup_eq_none_iff_not_mem : entries.lookup key = none ↔ key ∉ entries.map Prod.fst := by
  simp only [List.lookup_eq_none_iff, bne_iff_ne, List.mem_map, not_exists, not_and, ne_eq]
  constructor
  · exact fun h entry hmem heq => h entry hmem heq.symm
  · exact fun h entry hmem heq => h entry hmem heq.symm

theorem mem_of_lookup_eq_some (h : entries.lookup key = some value) : (key, value) ∈ entries := by
  obtain ⟨before, after, rfl, -⟩ := List.lookup_eq_some_iff.mp h
  simp

theorem lookup_eq_some_of_mem (hkeys : (entries.map Prod.fst).Nodup)
    (h : (key, value) ∈ entries) : entries.lookup key = some value := by
  obtain ⟨before, after, rfl⟩ := List.append_of_mem h
  refine List.lookup_eq_some_iff.mpr ⟨before, after, rfl, fun entry hentry => ?_⟩
  rw [List.map_append, List.nodup_append] at hkeys
  exact bne_iff_ne.mpr (hkeys.2.2 entry.1 (List.mem_map_of_mem hentry) key (by simp)).symm

theorem lookup_eq_some_iff_mem (hkeys : (entries.map Prod.fst).Nodup) :
    entries.lookup key = some value ↔ (key, value) ∈ entries :=
  ⟨mem_of_lookup_eq_some, lookup_eq_some_of_mem hkeys⟩

/-- What is found under a key does not depend on the order of the entries. -/
theorem lookup_perm {entries' : List (String × α)} (hperm : entries.Perm entries')
    (hkeys : (entries.map Prod.fst).Nodup) (key : String) :
    entries.lookup key = entries'.lookup key := by
  have hkeys' : (entries'.map Prod.fst).Nodup := (hperm.map Prod.fst).nodup_iff.mp hkeys
  apply Option.ext
  intro value
  rw [lookup_eq_some_iff_mem hkeys, lookup_eq_some_iff_mem hkeys', hperm.mem_iff]

namespace Distinct

theorem nil : Distinct p [] := ⟨List.nodup_nil, by simp⟩

theorem putEntry (h : Distinct p entries) (hvalue : p value) :
    Distinct p (putEntry key value entries) where
  keys := by
    rw [map_fst_putEntry]
    split
    · exact h.keys
    · next hkey => exact List.nodup_append_comm.mp (List.nodup_cons.mpr ⟨hkey, h.keys⟩)
  values entry hentry := by
    rcases mem_putEntry hentry with rfl | hentry
    · exact hvalue
    · exact h.values entry hentry

theorem lookup (h : Distinct p entries) (hlookup : entries.lookup key = some value) : p value :=
  h.values (key, value) (mem_of_lookup_eq_some hlookup)

end Distinct

end

namespace Toml

/-! ## Values -/

/-- The keys of every table in a value are distinct. -/
inductive Proper : Toml → Prop where
  | string {s : String} : Proper (.string s)
  | integer {i : Int} : Proper (.integer i)
  | float {x : Float} : Proper (.float x)
  | bool {b : Bool} : Proper (.bool b)
  | moment : Proper .moment
  | array {items : List Toml} (h : ∀ v ∈ items, Proper v) : Proper (.array items)
  | table {entries : Entries} (hkeys : (entries.map Prod.fst).Nodup)
      (hvalues : ∀ entry ∈ entries, Proper entry.2) : Proper (.table entries)

theorem Proper.entries {entries : Entries} (h : Proper (.table entries)) :
    Distinct Proper entries := by
  cases h with
  | table hkeys hvalues => exact ⟨hkeys, hvalues⟩

theorem Proper.items {items : List Toml} (h : Proper (.array items)) : ∀ v ∈ items, Proper v := by
  cases h with
  | array h => exact h

/-! ## Tables under construction -/

inductive Node.Proper : Node → Prop where
  | leaf {v : Toml} (h : v.Proper) : Proper (.leaf v)
  | branch {implicit dotted : Bool} {entries : List (String × Node)}
      (hkeys : (entries.map Prod.fst).Nodup) (hnodes : ∀ entry ∈ entries, Proper entry.2) :
      Proper (.branch implicit dotted entries)
  | branches {tables : List (List (String × Node))}
      (hkeys : ∀ entries ∈ tables, (entries.map Prod.fst).Nodup)
      (hnodes : ∀ entries ∈ tables, ∀ entry ∈ entries, Proper entry.2) :
      Proper (.branches tables)

theorem Node.values_eq_map (entries : List (String × Node)) :
    Node.values entries = entries.map fun entry => (entry.1, entry.2.value) := by
  induction entries with
  | nil => rfl
  | cons entry rest ih =>
    obtain ⟨key, node⟩ := entry
    simp [Node.values, ih]

theorem Node.tableValues_eq_map (tables : List (List (String × Node))) :
    Node.tableValues tables = tables.map fun entries => .table (Node.values entries) := by
  induction tables with
  | nil => rfl
  | cons entries rest ih => simp [Node.tableValues, ih]

theorem proper_table_values {entries : List (String × Node)}
    (hkeys : (entries.map Prod.fst).Nodup) (hnodes : ∀ entry ∈ entries, entry.2.value.Proper) :
    (table (Node.values entries)).Proper := by
  rw [Node.values_eq_map]
  refine .table ?_ ?_
  · simpa [Function.comp_def] using hkeys
  · intro entry hentry
    obtain ⟨source, hsource, rfl⟩ := List.mem_map.mp hentry
    exact hnodes source hsource

theorem Node.Proper.value {node : Node} (h : node.Proper) : node.value.Proper := by
  induction h with
  | leaf h => exact h
  | branch hkeys _ ih =>
    rw [Node.value]
    exact proper_table_values hkeys ih
  | branches hkeys _ ih =>
    rw [Node.value, Node.tableValues_eq_map]
    refine .array fun v hv => ?_
    obtain ⟨entries, hentries, rfl⟩ := List.mem_map.mp (List.mem_reverse.mp hv)
    exact proper_table_values (hkeys entries hentries) (ih entries hentries)

theorem Node.proper_branch_iff {implicit dotted : Bool} {entries : List (String × Node)} :
    (Node.branch implicit dotted entries).Proper ↔ Distinct Node.Proper entries := by
  constructor
  · intro h
    cases h with
    | branch hkeys hnodes => exact ⟨hkeys, hnodes⟩
  · exact fun h => .branch h.keys h.values

theorem Node.proper_branches_iff {tables : List (List (String × Node))} :
    (Node.branches tables).Proper ↔ ∀ entries ∈ tables, Distinct Node.Proper entries := by
  constructor
  · intro h
    cases h with
    | branches hkeys hnodes =>
      exact fun entries hentries => ⟨hkeys entries hentries, hnodes entries hentries⟩
  · exact fun h => .branches (fun t ht => (h t ht).keys) (fun t ht => (h t ht).values)

namespace Branch

abbrev Proper (b : Branch) : Prop := Distinct Node.Proper b.entries

/-- A change that leaves keys distinct. -/
abbrev KeepsKeys (change : Branch → Option Branch) : Prop :=
  ∀ b b' : Branch, b.Proper → change b = some b' → b'.Proper

theorem Proper.put {b : Branch} (h : b.Proper) (key : String) {node : Node} (hnode : node.Proper) :
    (b.put key node).Proper :=
  Distinct.putEntry h hnode

theorem keepsKeys_changeAt (dotted : Bool) {change : Branch → Option Branch}
    (hchange : KeepsKeys change) (path : List String) :
    KeepsKeys (Branch.changeAt dotted change path) := by
  induction path with
  | nil => exact hchange
  | cons key path ih =>
    intro b b' hb h
    unfold Branch.changeAt at h
    split at h
    next =>
      obtain ⟨child, hchild, hput⟩ := Option.bind_eq_some_iff.mp h
      cases hput
      exact hb.put key (Node.proper_branch_iff.mpr (ih _ child .nil hchild))
    next hget =>
      split at h
      · cases h
      obtain ⟨child, hchild, hput⟩ := Option.bind_eq_some_iff.mp h
      cases hput
      have hentries := Node.proper_branch_iff.mp (hb.lookup hget)
      exact hb.put key (Node.proper_branch_iff.mpr (ih _ child hentries hchild))
    next entries before hget =>
      obtain ⟨child, hchild, hput⟩ := Option.bind_eq_some_iff.mp h
      cases hput
      obtain ⟨hlast, hbefore⟩ := List.forall_mem_cons.mp
        (Node.proper_branches_iff.mp (hb.lookup hget))
      have hchild := ih (explicit entries) child hlast hchild
      exact hb.put key (Node.proper_branches_iff.mpr (List.forall_mem_cons.mpr ⟨hchild, hbefore⟩))
    next => cases h

theorem keepsKeys_insert (path : List String) (key : String) {value : Toml}
    (hvalue : value.Proper) : KeepsKeys (insert path key value) := by
  refine keepsKeys_changeAt true (fun b b' hb h => ?_) path
  split at h
  · cases h
  split at h
  · cases h
  · cases h
    exact hb.put key (.leaf hvalue)

theorem keepsKeys_insertAll {values : List (List String × String × Toml)}
    (hvalues : ∀ setting ∈ values, setting.2.2.Proper) : KeepsKeys (insertAll values) := by
  induction values with
  | nil =>
    intro b b' hb h
    cases h
    exact hb
  | cons setting rest ih =>
    obtain ⟨path, key, value⟩ := setting
    obtain ⟨hvalue, hrest⟩ := List.forall_mem_cons.mp hvalues
    intro b b' hb h
    obtain ⟨between, hinsert, hmore⟩ := Option.bind_eq_some_iff.mp h
    exact ih hrest between b' (keepsKeys_insert path key hvalue b between hb hinsert) hmore

end Branch

/-! ## Texts -/

namespace Grammar

open Branch

theorem proper_inlineTable {members : List (List String × String × Toml)} {v : Toml}
    (hmembers : ∀ member ∈ members, member.2.2.Proper) (h : inlineTable? members = some v) :
    v.Proper := by
  obtain ⟨b, hb, rfl⟩ := Option.map_eq_some_iff.mp h
  have hproper := keepsKeys_insertAll hmembers _ b .nil hb
  exact (Node.proper_branch_iff.mpr hproper).value

theorem proper_boundedInteger {i : Int} {v : Toml} (h : boundedInteger? i = some v) :
    v.Proper := by
  unfold boundedInteger? at h
  split at h
  · cases h
    exact .integer
  · cases h

theorem proper_integer {cs : List Char} {v : Toml} (h : integer? cs = some v) : v.Proper := by
  unfold integer? at h
  split at h
  iterate 3
    obtain ⟨digits, -, h⟩ := Option.bind_eq_some_iff.mp h
    exact proper_boundedInteger h
  obtain ⟨digits, -, h⟩ := Option.bind_eq_some_iff.mp h
  exact proper_boundedInteger h

theorem proper_float {cs : List Char} {v : Toml} (h : float? cs = some v) : v.Proper := by
  unfold float? at h
  dsimp only at h
  split at h
  · cases h
    exact .float
  · obtain ⟨whole, -, h⟩ := Option.bind_eq_some_iff.mp h
    have proper_of_finite {x : Float}
        (hx : (if x == 1.0 / 0.0 then none else some (Toml.float x)) = some v) : v.Proper := by
      split at hx
      · cases hx
      · cases hx
        exact .float
    -- The fraction and the exponent may each be left out, but not both.
    split at h
    all_goals
      obtain ⟨fraction, -, h⟩ := Option.bind_eq_some_iff.mp h
      split at h
      · split at h
        · cases h
        · exact proper_of_finite h
      · obtain ⟨exponent, -, h⟩ := Option.bind_eq_some_iff.mp h
        exact proper_of_finite h

theorem proper_word {word : List Char} {v : Toml} (h : word? word = some v) : v.Proper := by
  unfold word? at h
  split_ifs at h
  · cases h
    exact .bool
  · cases h
    exact .bool
  · cases h
    exact .moment
  · rcases Option.or_eq_some_iff.mp h with h | ⟨-, h⟩
    · exact proper_integer h
    · exact proper_float h

theorem proper_scalar {cs rest : List Char} {v : Toml} (h : scalar? cs = some (v, rest)) :
    v.Proper := by
  unfold scalar? at h
  dsimp only at h
  split at h
  · split_ifs at h
    · cases h
      exact .moment
    · cases h
      exact .moment
  · obtain ⟨w, hw, heq⟩ := Option.map_eq_some_iff.mp h
    cases heq
    exact proper_word hw

def ValuesProper (steps : Nat) : Prop :=
  ∀ (depth : Nat) (cs rest : List Char) (v : Toml),
    value? steps depth cs = some (v, rest) → v.Proper

def ItemsProper (steps : Nat) : Prop :=
  ∀ (depth : Nat) (cs rest : List Char) (vs : List Toml),
    items? steps depth cs = some (vs, rest) → ∀ v ∈ vs, v.Proper

def MembersProper (steps : Nat) : Prop :=
  ∀ (depth : Nat) (cs rest : List Char) (members : List (List String × String × Toml)),
    members? steps depth cs = some (members, rest) → ∀ member ∈ members, member.2.2.Proper

theorem valuesProper_succ {steps : Nat} (hitems : ItemsProper steps)
    (hmembers : MembersProper steps) : ValuesProper (steps + 1) := by
  intro depth cs rest v h
  unfold value? at h
  split at h
  · obtain ⟨_, -, heq⟩ := Option.map_eq_some_iff.mp h
    cases heq
    exact .string
  · obtain ⟨_, -, heq⟩ := Option.map_eq_some_iff.mp h
    cases heq
    exact .string
  · split at h
    · cases h
    · obtain ⟨⟨vs, after⟩, hvs, heq⟩ := Option.map_eq_some_iff.mp h
      cases heq
      exact .array (hitems _ _ _ _ hvs)
  · split at h
    · cases h
    · dsimp only at h
      split at h
      all_goals
        obtain ⟨⟨members, after⟩, hread, h⟩ := Option.bind_eq_some_iff.mp h
        obtain ⟨v, hv, heq⟩ := Option.bind_eq_some_iff.mp h
        cases heq
      · cases hread
        exact proper_inlineTable (by simp) hv
      · exact proper_inlineTable (hmembers _ _ _ _ hread) hv
  · exact proper_scalar h

theorem itemsProper_succ {steps : Nat} (hvalues : ValuesProper steps)
    (hitems : ItemsProper steps) : ItemsProper (steps + 1) := by
  intro depth cs rest vs h
  unfold items? at h
  obtain ⟨start, -, h⟩ := Option.bind_eq_some_iff.mp h
  split at h
  · cases h
    simp
  · obtain ⟨⟨v, afterItem⟩, hv, h⟩ := Option.bind_eq_some_iff.mp h
    have hv := hvalues _ _ _ _ hv
    obtain ⟨next, -, h⟩ := Option.bind_eq_some_iff.mp h
    split at h
    · cases h
      simpa using hv
    · obtain ⟨⟨more, after⟩, hmore, heq⟩ := Option.bind_eq_some_iff.mp h
      cases heq
      exact List.forall_mem_cons.mpr ⟨hv, hitems _ _ _ _ hmore⟩
    · cases h

theorem membersProper_succ {steps : Nat} (hvalues : ValuesProper steps)
    (hmembers : MembersProper steps) : MembersProper (steps + 1) := by
  intro depth cs rest members h
  unfold members? at h
  obtain ⟨⟨⟨path, key⟩, afterKey⟩, -, h⟩ := Option.bind_eq_some_iff.mp h
  dsimp only at h
  split at h
  · obtain ⟨⟨v, afterValue⟩, hv, h⟩ := Option.bind_eq_some_iff.mp h
    have hv := hvalues _ _ _ _ hv
    dsimp only at h
    split at h
    · cases h
      simpa using hv
    · obtain ⟨⟨more, after⟩, hmore, heq⟩ := Option.bind_eq_some_iff.mp h
      cases heq
      exact List.forall_mem_cons.mpr ⟨hv, hmembers _ _ _ _ hmore⟩
    · cases h
  · cases h

-- Values, items and members call one another with fewer steps, so all three go by one induction.
theorem proper_values_items_members (steps : Nat) :
    ValuesProper steps ∧ ItemsProper steps ∧ MembersProper steps := by
  induction steps with
  | zero =>
    refine ⟨?_, ?_, ?_⟩
    · intro depth cs rest v h
      simp [value?] at h
    · intro depth cs rest vs h
      simp [items?] at h
    · intro depth cs rest members h
      simp [members?] at h
  | succ steps ih =>
    obtain ⟨hvalues, hitems, hmembers⟩ := ih
    exact ⟨valuesProper_succ hitems hmembers, itemsProper_succ hvalues hitems,
      membersProper_succ hvalues hmembers⟩

def Line.Proper : Line → Prop
  | setting _ _ value => value.Proper
  | header .. => True

theorem proper_line {cs rest : List Char} {line : Line} (h : line? cs = some (line, rest)) :
    line.Proper := by
  unfold line? at h
  split at h
  all_goals
    obtain ⟨⟨⟨path, key⟩, afterKey⟩, -, h⟩ := Option.bind_eq_some_iff.mp h
    dsimp only at h
  iterate 2
    split at h
    · obtain ⟨after, -, heq⟩ := Option.bind_eq_some_iff.mp h
      cases heq
      trivial
    · cases h
  · split at h
    · obtain ⟨⟨v, afterValue⟩, hv, h⟩ := Option.bind_eq_some_iff.mp h
      obtain ⟨after, -, heq⟩ := Option.bind_eq_some_iff.mp h
      cases heq
      exact (proper_values_items_members _).1 _ _ _ _ hv
    · cases h

theorem proper_lines {steps : Nat} {cs : List Char} {lines : List Line}
    (h : lines? steps cs = some lines) : ∀ line ∈ lines, line.Proper := by
  induction steps generalizing cs lines with
  | zero =>
    unfold lines? at h
    split at h
    · cases h
      simp
    · cases h
  | succ steps ih =>
    unfold lines? at h
    split at h
    · cases h
      simp
    · obtain ⟨after, -, h⟩ := Option.bind_eq_some_iff.mp h
      exact ih h
    · exact ih h
    · obtain ⟨after, -, h⟩ := Option.bind_eq_some_iff.mp h
      exact ih h
    · obtain ⟨⟨line, after⟩, hline, h⟩ := Option.bind_eq_some_iff.mp h
      obtain ⟨more, hmore, heq⟩ := Option.bind_eq_some_iff.mp h
      cases heq
      exact List.forall_mem_cons.mpr ⟨proper_line hline, ih hmore⟩

theorem proper_leadingSettings {lines : List Line} (h : ∀ line ∈ lines, line.Proper) :
    ∀ setting ∈ leadingSettings lines, setting.2.2.Proper := by
  induction lines with
  | nil => simp [leadingSettings]
  | cons line rest ih =>
    obtain ⟨hline, hrest⟩ := List.forall_mem_cons.mp h
    cases line with
    | setting path key value => exact List.forall_mem_cons.mpr ⟨hline, ih hrest⟩
    | header ofMany path key => simp [leadingSettings]

theorem keepsKeys_addSection (ofMany : Bool) (path : List String) (key : String)
    {settings : List (List String × String × Toml)}
    (hsettings : ∀ setting ∈ settings, setting.2.2.Proper) :
    KeepsKeys (addSection ofMany path key settings) := by
  have hinsert := keepsKeys_insertAll hsettings
  refine keepsKeys_changeAt false (fun parent parent' hparent h => ?_) path
  split at h
  · obtain ⟨b, hb, heq⟩ := Option.bind_eq_some_iff.mp h
    cases heq
    exact hparent.put key (Node.proper_branch_iff.mpr (hinsert _ b .nil hb))
  · next hget =>
    obtain ⟨b, hb, heq⟩ := Option.bind_eq_some_iff.mp h
    cases heq
    have hentries := Node.proper_branch_iff.mp (hparent.lookup hget)
    exact hparent.put key (Node.proper_branch_iff.mpr (hinsert _ b hentries hb))
  · obtain ⟨b, hb, heq⟩ := Option.bind_eq_some_iff.mp h
    cases heq
    refine hparent.put key (Node.proper_branches_iff.mpr ?_)
    simpa using hinsert _ b .nil hb
  · next before hget =>
    obtain ⟨b, hb, heq⟩ := Option.bind_eq_some_iff.mp h
    cases heq
    have hbefore := Node.proper_branches_iff.mp (hparent.lookup hget)
    refine hparent.put key (Node.proper_branches_iff.mpr ?_)
    exact List.forall_mem_cons.mpr ⟨hinsert _ b .nil hb, hbefore⟩
  · cases h

theorem proper_addSections {lines : List Line} {root root' : Branch}
    (hlines : ∀ line ∈ lines, line.Proper) (hroot : root.Proper)
    (h : addSections root lines = some root') : root'.Proper := by
  induction lines generalizing root with
  | nil =>
    cases h
    exact hroot
  | cons line rest ih =>
    obtain ⟨-, hrest⟩ := List.forall_mem_cons.mp hlines
    cases line with
    | setting path key value => exact ih hrest hroot h
    | header ofMany path key =>
      obtain ⟨between, hsection, h⟩ := Option.bind_eq_some_iff.mp h
      have hbetween := keepsKeys_addSection ofMany path key (proper_leadingSettings hrest)
        root between hroot hsection
      exact ih hrest hbetween h

theorem proper_tableOfLines {lines : List Line} {entries : Entries}
    (hlines : ∀ line ∈ lines, line.Proper) (h : tableOfLines? lines = some entries) :
    (table entries).Proper := by
  obtain ⟨start, hstart, h⟩ := Option.bind_eq_some_iff.mp h
  obtain ⟨root, hroot, heq⟩ := Option.bind_eq_some_iff.mp h
  cases heq
  have hstart := keepsKeys_insertAll (proper_leadingSettings hlines) _ start .nil hstart
  have hroot := proper_addSections hlines hstart hroot
  exact (Node.proper_branch_iff.mpr hroot : (Node.branch false false root.entries).Proper).value

end Grammar

/-- Each key of each table that a text is read as has one value. -/
theorem proper_parse {text : String} {entries : Entries} (h : parse? text = some entries) :
    (table entries).Proper := by
  obtain ⟨lines, hlines, h⟩ := Option.bind_eq_some_iff.mp h
  exact Grammar.proper_tableOfLines (Grammar.proper_lines hlines) h

end Toml

end CodeQuality
