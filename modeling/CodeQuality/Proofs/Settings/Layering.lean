import CodeQuality.Proofs.Settings.DistinctKeys
import CodeQuality.Settings.Overlay
import Mathlib.Data.List.TakeWhile

/-!
Tables laid over one another.

Where a layer has a key, its value is laid over what is below, and everything else stays. So what
many layers make of a key is made of the values that they have under it, and of those only the ones
show that no other value than a table lies over.
-/

namespace CodeQuality.Toml

/-! ## One layer -/

def isTable : Toml → Bool
  | table _ => true
  | _ => false

theorem layOver_of_not_isTable {v : Toml} (h : v.isTable = false) (below : Option Toml) :
    layOver below v = v := by
  cases v with
  | table entries => cases h
  | _ => rfl

theorem isTable_layOver {v : Toml} (h : v.isTable) (below : Option Toml) :
    (layOver below v).isTable := by
  cases v with
  | table entries => rfl
  | _ => cases h

theorem lookup_overlay {layer : Entries} (h : (layer.map Prod.fst).Nodup) (base : Entries)
    (key : String) :
    (overlay base layer).lookup key =
      match layer.lookup key with
      | none => base.lookup key
      | some v => some (layOver (base.lookup key) v) := by
  induction layer generalizing base with
  | nil => rfl
  | cons entry rest ih =>
    obtain ⟨k, v⟩ := entry
    obtain ⟨hk, hrest⟩ := List.nodup_cons.mp h
    rw [overlay, ih hrest]
    by_cases heq : key = k
    · subst heq
      rw [lookup_eq_none_iff_not_mem.mpr hk, List.lookup_cons_self, lookup_putEntry_self]
    · rw [List.lookup_cons, beq_false_of_ne heq, lookup_putEntry_of_ne heq]

theorem overlay_eq_append {base layer : Entries} (hkeys : (layer.map Prod.fst).Nodup)
    (hnew : ∀ entry ∈ layer, entry.1 ∉ base.map Prod.fst)
    (hvalues : ∀ entry ∈ layer, layOver none entry.2 = entry.2) :
    overlay base layer = base ++ layer := by
  induction layer generalizing base with
  | nil => simp [overlay]
  | cons entry rest ih =>
    obtain ⟨k, v⟩ := entry
    obtain ⟨hk, hrest⟩ := List.nodup_cons.mp hkeys
    obtain ⟨hknew, hrestnew⟩ := List.forall_mem_cons.mp hnew
    obtain ⟨hv, hrestvalues⟩ := List.forall_mem_cons.mp hvalues
    rw [overlay, lookup_eq_none_iff_not_mem.mpr hknew, hv, putEntry_eq_append hknew]
    rw [ih hrest _ hrestvalues, List.append_assoc, List.singleton_append]
    intro entry hentry
    rw [List.map_append, List.mem_append, not_or]
    refine ⟨hrestnew entry hentry, fun hmem => hk ?_⟩
    rw [← List.mem_singleton.mp hmem]
    exact List.mem_map_of_mem hentry

/-- A value that lies over nothing is left as it is. -/
theorem layOver_none {v : Toml} (h : v.Proper) : layOver none v = v := by
  induction h with
  | table hkeys _ ih =>
    have hnothing : tableEntries none = [] := rfl
    rw [layOver, hnothing, overlay_eq_append hkeys (by simp) ih, List.nil_append]
  | _ => rfl

/-! ## Many layers -/

/-- What values laid over one another make, the highest first. -/
def stacked : List Toml → Option Toml
  | [] => none
  | v :: lower => some (layOver (stacked lower) v)

/-- Of values laid over one another, the highest first, those that show: tables down to the first
other value, or the highest value alone if it is no table. -/
def showing : List Toml → List Toml
  | [] => []
  | v :: lower => v :: if v.isTable then lower.takeWhile isTable else []

theorem lookup_overlayAll {tables : List Entries}
    (h : ∀ entries ∈ tables, (entries.map Prod.fst).Nodup) (key : String) :
    (overlayAll tables).lookup key =
      stacked (tables.reverse.filterMap fun entries => entries.lookup key) := by
  unfold overlayAll
  rw [← List.foldr_reverse]
  have hreverse : ∀ entries ∈ tables.reverse, (entries.map Prod.fst).Nodup := by simpa using h
  generalize tables.reverse = highestFirst at hreverse
  induction highestFirst with
  | nil => rfl
  | cons top lower ih =>
    obtain ⟨htop, hlower⟩ := List.forall_mem_cons.mp hreverse
    rw [List.foldr_cons, lookup_overlay htop, ih hlower]
    cases htopkey : top.lookup key with
    | none => rw [List.filterMap_cons_none htopkey]
    | some v => rw [List.filterMap_cons_some htopkey, stacked]

theorem isPrefix_showing (vs : List Toml) : showing vs <+: vs := by
  cases vs with
  | nil => exact List.prefix_rfl
  | cons top lower =>
    rw [showing, List.prefix_cons_inj]
    split
    · exact List.takeWhile_prefix _
    · exact List.nil_prefix

theorem showing_of_isTable {top : Toml} (h : top.isTable) (lower : List Toml) :
    showing (top :: lower) = (top :: lower).takeWhile isTable := by
  simp [showing, h]

theorem tableEntries_stacked_takeWhile (vs : List Toml) :
    tableEntries (stacked (vs.takeWhile isTable)) = tableEntries (stacked vs) := by
  induction vs with
  | nil => rfl
  | cons top lower ih =>
    cases top with
    | table entries =>
      simp only [List.takeWhile_cons, isTable, if_true, stacked, layOver, ih]
    | _ => rfl

/-- What does not show makes no difference. -/
theorem stacked_showing (vs : List Toml) : stacked (showing vs) = stacked vs := by
  cases vs with
  | nil => rfl
  | cons top lower =>
    cases top with
    | table entries => simp only [showing, isTable, if_true, stacked, layOver,
        tableEntries_stacked_takeWhile]
    | _ => rfl

theorem stacked_of_not_isTable {vs : List Toml} (h : ∀ v ∈ vs, v.isTable = false) :
    stacked vs = vs.head? := by
  cases vs with
  | nil => rfl
  | cons top lower =>
    rw [stacked, layOver_of_not_isTable (h top List.mem_cons_self), List.head?_cons]

theorem proper_stacked_singleton {v : Toml} (h : v.Proper) : stacked [v] = some v := by
  rw [stacked, stacked, layOver_none h]

theorem get?_singleton_table (key : String) (entries : Entries) :
    get? [key] (table entries) = entries.lookup key := by
  simp [get?]

theorem get?_singleton_of_not_isTable {v : Toml} (h : v.isTable = false) (key : String) :
    get? [key] v = none := by
  cases v with
  | table entries => cases h
  | _ => rfl

theorem get?_stacked_cons {entries : Entries} (hkeys : (entries.map Prod.fst).Nodup)
    (lower : List Toml) (key : String) :
    (stacked (table entries :: lower)).bind (get? [key]) =
      match entries.lookup key with
      | none => (stacked lower).bind (get? [key])
      | some v => some (layOver ((stacked lower).bind (get? [key])) v) := by
  have hbelow : (tableEntries (stacked lower)).lookup key = (stacked lower).bind (get? [key]) := by
    cases hstacked : stacked lower with
    | none => rfl
    | some v =>
      cases v with
      | table entries => exact (get?_singleton_table key entries).symm
      | _ => rfl
  rw [stacked, layOver, Option.bind_some, get?_singleton_table, lookup_overlay hkeys, hbelow]

theorem get?_stacked_of_isTable {vs : List Toml} (htables : ∀ v ∈ vs, v.isTable)
    (hproper : ∀ v ∈ vs, v.Proper) (key : String) :
    (stacked vs).bind (get? [key]) = stacked (vs.filterMap (get? [key])) := by
  induction vs with
  | nil => rfl
  | cons top lower ih =>
    obtain ⟨htop, hlower⟩ := List.forall_mem_cons.mp htables
    obtain ⟨htopProper, hlowerProper⟩ := List.forall_mem_cons.mp hproper
    cases top with
    | table entries =>
      rw [get?_stacked_cons htopProper.entries.keys, ih hlower hlowerProper]
      cases hkey : entries.lookup key with
      | none => rw [List.filterMap_cons_none (by rw [get?_singleton_table, hkey])]
      | some v => rw [List.filterMap_cons_some (by rw [get?_singleton_table, hkey]), stacked]
    | _ => cases htop

/-- Under a key of values laid over one another lie the values under that key of those that show,
one over the other. -/
theorem get?_stacked {vs : List Toml} (hproper : ∀ v ∈ vs, v.Proper) (key : String) :
    (stacked vs).bind (get? [key]) = stacked ((showing vs).filterMap (get? [key])) := by
  cases vs with
  | nil => rfl
  | cons top lower =>
    by_cases htop : top.isTable
    · rw [← stacked_showing, get?_stacked_of_isTable]
      · rw [showing_of_isTable htop]
        exact fun v hv => List.mem_takeWhile_imp hv
      · exact fun v hv => hproper v ((isPrefix_showing _).subset hv)
    · have htop : top.isTable = false := Bool.eq_false_iff.mpr htop
      have hnone := get?_singleton_of_not_isTable htop key
      simp [stacked, showing, layOver_of_not_isTable htop, htop, hnone]

end CodeQuality.Toml
