import CodeQuality.Proofs.Settings.Precedence

/-!
Arrays with more items than their section has fields.

Such an array is found at the end of a path of sections, so precedence tells which layers it comes
from: merged tables have one exactly if a layer has one that no higher layer covers.
-/

namespace CodeQuality.SectionShape

/-- The keys of a path lead from a section to a part of it. -/
inductive Leads : SectionShape → List String → SectionShape → Prop where
  | here {shape : SectionShape} : Leads shape [] shape
  | into {shapes : List (String × SectionShape)} {key : String} {shape inner : SectionShape}
      {path : List String} (hmem : (key, shape) ∈ shapes) (h : Leads shape path inner) :
      Leads (fields shapes) (key :: path) inner

/-- Of some layers, the lowest first, one has an array with too many items that no higher one
covers. -/
def Overflows (tables : List Toml.Entries) : Prop :=
  ∃ path inner items, Leads settings path inner ∧
    (surplus? inner (.array items)).isSome ∧ Toml.Prevails tables path (.array items)

theorem surplusInTable?_cons_isSome_iff {key : String} {shape : SectionShape}
    {rest : List (String × SectionShape)} {entries : Toml.Entries} :
    (surplusInTable? ((key, shape) :: rest) entries).isSome ↔
      (∃ v, entries.lookup key = some v ∧ (surplus? shape v).isSome) ∨
        (surplusInTable? rest entries).isSome := by
  rw [surplusInTable?, Option.isSome_merge, Bool.or_eq_true]
  cases entries.lookup key <;> simp

theorem surplusInTable?_isSome_iff {shapes : List (String × SectionShape)}
    {entries : Toml.Entries} :
    (surplusInTable? shapes entries).isSome ↔
      ∃ key shape v, (key, shape) ∈ shapes ∧ entries.lookup key = some v ∧
        (surplus? shape v).isSome := by
  induction shapes with
  | nil => simp [surplusInTable?]
  | cons first rest ih =>
    obtain ⟨key, shape⟩ := first
    rw [surplusInTable?_cons_isSome_iff, ih]
    constructor
    · rintro (⟨v, hv, hsurplus⟩ | ⟨other, inner, v, hmem, hv, hsurplus⟩)
      · exact ⟨key, shape, v, List.mem_cons_self, hv, hsurplus⟩
      · exact ⟨other, inner, v, List.mem_cons_of_mem _ hmem, hv, hsurplus⟩
    · rintro ⟨other, inner, v, hmem, hv, hsurplus⟩
      rcases List.mem_cons.mp hmem with heq | hmem
      · cases heq
        exact .inl ⟨v, hv, hsurplus⟩
      · exact .inr ⟨other, inner, v, hmem, hv, hsurplus⟩

theorem exists_array_of_surplus : ∀ (shape : SectionShape) (v : Toml),
    (surplus? shape v).isSome → ∃ path inner items, Leads shape path inner ∧
      (surplus? inner (.array items)).isSome ∧ Toml.get? path v = some (.array items)
  | .fields shapes, .array items, h => ⟨[], fields shapes, items, .here, h, rfl⟩
  | .fields shapes, .table entries, h => by
    rw [surplus?] at h
    obtain ⟨key, shape, w, hmem, hw, hsurplus⟩ := surplusInTable?_isSome_iff.mp h
    have hsmaller := List.sizeOf_lt_of_mem hmem
    obtain ⟨path, inner, items, hleads, hinner, hget⟩ := exists_array_of_surplus shape w hsurplus
    refine ⟨key :: path, inner, items, .into hmem hleads, hinner, ?_⟩
    rw [Toml.get?_cons_table, hw]
    exact hget
termination_by shape => sizeOf shape
decreasing_by
  simp only [fields.sizeOf_spec, Prod.mk.sizeOf_spec] at hsmaller ⊢
  omega

theorem Leads.surplus {shape inner : SectionShape} {path : List String} (h : Leads shape path inner)
    {v : Toml} {items : List Toml} (hget : Toml.get? path v = some (.array items))
    (hinner : (surplus? inner (.array items)).isSome) : (surplus? shape v).isSome := by
  induction h generalizing v with
  | here =>
    cases hget
    exact hinner
  | @into shapes key shape inner path hmem _ ih =>
    cases v with
    | table entries =>
      rw [Toml.get?_cons_table] at hget
      obtain ⟨w, hw, hget⟩ := Option.bind_eq_some_iff.mp hget
      rw [surplus?]
      exact surplusInTable?_isSome_iff.mpr ⟨key, shape, w, hmem, hw, ih hget hinner⟩
    | _ => cases hget

/-- Sections have an array with too many items exactly if a path leads to one. -/
theorem surplus?_isSome_iff {shape : SectionShape} {v : Toml} :
    (surplus? shape v).isSome ↔
      ∃ path inner items, Leads shape path inner ∧ (surplus? inner (.array items)).isSome ∧
        Toml.get? path v = some (.array items) := by
  constructor
  · exact exists_array_of_surplus shape v
  · rintro ⟨path, inner, items, hleads, hinner, hget⟩
    exact hleads.surplus hget hinner

theorem surplus?_overlayAll_isSome_iff {tables : List Toml.Entries}
    (hproper : ∀ entries ∈ tables, (Toml.table entries).Proper) :
    (surplus? settings (.table (Toml.overlayAll tables))).isSome ↔ Overflows tables := by
  rw [surplus?_isSome_iff, Overflows]
  have hleaf {items : List Toml} : (Toml.array items).isTable = false := rfl
  simp only [Toml.get?_overlayAll_eq_some_iff hproper _ hleaf]

/-- An array with too many items that shows comes from a layer that has it by itself. -/
theorem Overflows.exists_layer {tables : List Toml.Entries} (h : Overflows tables) :
    ∃ entries ∈ tables, (surplus? settings (.table entries)).isSome := by
  obtain ⟨path, inner, items, hleads, hinner, lower, layer, upper, rfl, hget, -⟩ := h
  exact ⟨layer, by simp, hleads.surplus hget hinner⟩

end CodeQuality.SectionShape
