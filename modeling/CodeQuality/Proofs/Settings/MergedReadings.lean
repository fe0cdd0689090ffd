import CodeQuality.Proofs.Settings.Precedence

/-!
Reading what lies over one another.

A field of merged values is the field of one of them, or again a value over another one. So what is
readable by itself is readable when it is merged, and a rule that looks at one field at a time holds
of the merged settings if it holds of each layer.
-/

namespace CodeQuality

open Toml (layOver overlay fields? openFields? openField?)

/-! ## Values under one key -/

/-- What a layer makes of a key: its value lies over the one below, which stays if it has none. -/
def Toml.laidOver (below above : Option Toml) : Option Toml :=
  match above with
  | none => below
  | some v => some (layOver below v)

open Toml (laidOver)

theorem Toml.lookup_overlay_eq_laidOver {layer : Entries} (h : (layer.map Prod.fst).Nodup)
    (base : Entries) (key : String) :
    (overlay base layer).lookup key = laidOver (base.lookup key) (layer.lookup key) :=
  lookup_overlay h base key

theorem Toml.mem_keys_overlay {layer : Entries} (h : (layer.map Prod.fst).Nodup) {base : Entries}
    {key : String} (hkey : key ∈ (overlay base layer).map Prod.fst) :
    key ∈ base.map Prod.fst ∨ key ∈ layer.map Prod.fst := by
  by_contra hnot
  rw [not_or, ← lookup_eq_none_iff_not_mem, ← lookup_eq_none_iff_not_mem] at hnot
  refine lookup_eq_none_iff_not_mem.mp ?_ hkey
  rw [lookup_overlay_eq_laidOver h, hnot.1, hnot.2, laidOver]

theorem Toml.keys_overlay {layer : Entries} (h : (layer.map Prod.fst).Nodup) {base : Entries}
    {names : List String} (hbase : ∀ entry ∈ base, entry.1 ∈ names)
    (hlayer : ∀ entry ∈ layer, entry.1 ∈ names) :
    ∀ entry ∈ overlay base layer, entry.1 ∈ names := by
  intro entry hentry
  rcases mem_keys_overlay h (List.mem_map_of_mem hentry) with hmem | hmem
  · obtain ⟨source, hsource, heq⟩ := List.mem_map.mp hmem
    exact heq ▸ hbase source hsource
  · obtain ⟨source, hsource, heq⟩ := List.mem_map.mp hmem
    exact heq ▸ hlayer source hsource

/-- A reader that reads no tables reads leaves only. -/
def ReadsLeaves {α : Type} (read : Toml → Option α) : Prop :=
  ∀ entries, read (.table entries) = none

theorem readsLeaves_string? : ReadsLeaves Toml.string? := fun _ => rfl

theorem readsLeaves_number? : ReadsLeaves Toml.number? := fun _ => rfl

theorem readsLeaves_word? : ReadsLeaves Toml.word? := fun _ => rfl

theorem ReadsLeaves.layOver_eq {α : Type} {read : Toml → Option α} (h : ReadsLeaves read)
    {v : Toml} {x : α} (hv : read v = some x) (below : Option Toml) : layOver below v = v := by
  cases v with
  | table entries =>
    rw [h] at hv
    cases hv
  | _ => rfl

section

variable {α : Type} {read : Toml → Option α} {below above : Option Toml} {x y : α}

theorem requiredField_laidOver (hleaves : ReadsLeaves read) (h : requiredField read above = some y)
    (below : Option Toml) : requiredField read (laidOver below above) = some y := by
  obtain ⟨v, rfl, hv⟩ := Option.bind_eq_some_iff.mp h
  rw [laidOver, hleaves.layOver_eq hv]
  exact hv

theorem exists_defaultedField_laidOver (hleaves : ReadsLeaves read) {value : α}
    (hx : defaultedField value read below = some x)
    (hy : defaultedField value read above = some y) :
    ∃ z, defaultedField value read (laidOver below above) = some z ∧ (z = x ∨ z = y) := by
  cases above with
  | none => exact ⟨x, hx, .inl rfl⟩
  | some v =>
    refine ⟨y, ?_, .inr rfl⟩
    rw [laidOver, hleaves.layOver_eq hy]
    exact hy

end

/-! ## Readers -/

section

variable {α : Type}

/-- A reader that reads two values also reads one laid over the other, and what it reads is good if
both results are. -/
def Lasting (read : Toml → Option α) (good : α → Prop) : Prop :=
  ∀ ⦃below above : Toml⦄ ⦃x y : α⦄, above.Proper → read below = some x → read above = some y →
    ∃ z, read (layOver (some below) above) = some z ∧ (good x → good y → good z)

/-- The same for a reader of the fields of a section. -/
def LastingFields (read : List (Option Toml) → Option α) (good : α → Prop) : Prop :=
  ∀ ⦃below above : List (Option Toml)⦄ ⦃x y : α⦄, (∀ a ∈ above, ∀ v ∈ a, v.Proper) →
    read below = some x → read above = some y →
    ∃ z, read (List.zipWith laidOver below above) = some z ∧ (good x → good y → good z)

variable {good : α → Prop} {x y : α}

theorem ReadsLeaves.lasting {read : Toml → Option α} (h : ReadsLeaves read) (good : α → Prop) :
    Lasting read good := by
  intro below above x y _ _ hy
  exact ⟨y, by rw [h.layOver_eq hy, hy], fun _ hgood => hgood⟩

theorem Lasting.openField? {read : Toml → Option α} (h : Lasting read good)
    {below above : Option Toml} {x y : Option α} (hproper : ∀ v ∈ above, v.Proper)
    (hx : openField? read below = some x) (hy : openField? read above = some y) :
    ∃ z, openField? read (laidOver below above) = some z ∧
      ((∀ a ∈ x, good a) → (∀ a ∈ y, good a) → ∀ a ∈ z, good a) := by
  cases above with
  | none => exact ⟨x, hx, fun hgood _ => hgood⟩
  | some v =>
    cases below with
    | none =>
      rw [laidOver, Toml.layOver_none (hproper v rfl)]
      exact ⟨y, hy, fun _ hgood => hgood⟩
    | some w =>
      obtain ⟨a, ha, rfl⟩ := Option.map_eq_some_iff.mp hx
      obtain ⟨b, hb, rfl⟩ := Option.map_eq_some_iff.mp hy
      obtain ⟨c, hc, hgood⟩ := h (hproper v rfl) ha hb
      refine ⟨some c, by rw [laidOver, Toml.openField?, hc, Option.map_some], ?_⟩
      simpa using hgood

theorem proper_of_fields? {form : ArrayForm} {names : List String} {v : Toml}
    {fields : List (Option Toml)} (hproper : v.Proper) (h : v.fields? form names = some fields) :
    ∀ a ∈ fields, ∀ w ∈ a, w.Proper := by
  cases v with
  | table entries =>
    obtain ⟨-, rfl⟩ := Toml.fields?_table_eq_some_iff.mp h
    intro a ha w hw
    obtain ⟨name, -, rfl⟩ := List.mem_map.mp ha
    exact hproper.entries.lookup hw
  | array items =>
    simp only [Toml.fields?] at h
    split at h
    · cases h
    · cases h
      intro a ha w hw
      rcases List.mem_append.mp ha with ha | ha
      · obtain ⟨item, hitem, rfl⟩ := List.mem_map.mp ha
        cases hw
        exact hproper.items _ (List.mem_of_mem_take hitem)
      · cases List.eq_of_mem_replicate ha
        cases hw
  | _ => cases h

/-- The fields of a value over another are its own, or each lies over the one below. -/
theorem fields?_layOver {form : ArrayForm} {names : List String} {below above : Toml}
    {bs as : List (Option Toml)} (hproper : above.Proper)
    (hbelow : below.fields? form names = some bs) (habove : above.fields? form names = some as) :
    (layOver (some below) above).fields? form names = some as ∨
      (layOver (some below) above).fields? form names = some (List.zipWith laidOver bs as) := by
  cases above with
  | array items => exact .inl habove
  | table entries =>
    have hkeys := hproper.entries.keys
    cases below with
    | table beneath =>
      obtain ⟨hbelowKeys, rfl⟩ := Toml.fields?_table_eq_some_iff.mp hbelow
      obtain ⟨haboveKeys, rfl⟩ := Toml.fields?_table_eq_some_iff.mp habove
      refine .inr (Toml.fields?_table_eq_some_iff.mpr
        ⟨Toml.keys_overlay hkeys hbelowKeys haboveKeys, ?_⟩)
      rw [List.zipWith_map]
      simp [Toml.tableEntries, Toml.lookup_overlay_eq_laidOver hkeys]
    | _ =>
      have hnothing := Toml.layOver_none hproper
      exact .inl (by rw [← habove]; exact congrArg _ hnothing)
  | _ => cases habove

theorem LastingFields.lasting {read : List (Option Toml) → Option α} (h : LastingFields read good)
    (form : ArrayForm) (names : List String) :
    Lasting (fun v => (v.fields? form names).bind read) good := by
  intro below above x y hproper hx hy
  obtain ⟨bs, hbs, hx⟩ := Option.bind_eq_some_iff.mp hx
  obtain ⟨as, has, hy⟩ := Option.bind_eq_some_iff.mp hy
  dsimp only
  rcases fields?_layOver hproper hbs has with hfields | hfields
  · rw [hfields]
    exact ⟨y, hy, fun _ hgood => hgood⟩
  · rw [hfields]
    exact h (proper_of_fields? hproper has) hx hy

theorem LastingFields.openFields? {read : List (Option Toml) → Option α}
    (h : LastingFields read good) {names : List String} {below above : Option Toml}
    (hproper : ∀ v ∈ above, v.Proper) (hx : (openFields? names below).bind read = some x)
    (hy : (openFields? names above).bind read = some y) :
    ∃ z, (openFields? names (laidOver below above)).bind read = some z ∧
      (good x → good y → good z) := by
  cases above with
  | none => exact ⟨x, hx, fun hgood _ => hgood⟩
  | some v =>
    cases below with
    | none =>
      rw [laidOver, Toml.layOver_none (hproper v rfl)]
      exact ⟨y, hy, fun _ hgood => hgood⟩
    | some w => exact h.lasting .whole names (hproper v rfl) hx hy

end

/-! ## Coefficients -/

/-- A check that two coefficients pass is passed by either. -/
theorem of_either {α : Type} {check : α → Bool} {x y z : α} (hz : z = x ∨ z = y)
    (hx : check x = true) (hy : check y = true) : check z = true := by
  rcases hz with rfl | rfl
  · exact hx
  · exact hy

section

variable {V : Type} [NumberSource V]

open NumberSource (float? word?)

theorem Severity.Weights.ofFields?_eq_some_iff {fields : List (Option V)} {w : Weights} :
    ofFields? fields = some w ↔ ∃ a b c d, fields = [a, b, c, d] ∧
      defaultedField Weights.standard.critical float? a = some w.critical ∧
      defaultedField Weights.standard.high float? b = some w.high ∧
      defaultedField Weights.standard.medium float? c = some w.medium ∧
      defaultedField Weights.standard.low float? d = some w.low := by
  obtain ⟨x₁, x₂, x₃, x₄⟩ := w
  unfold ofFields?
  split
  · simp [Option.bind_eq_some_iff]
  · simp_all

theorem Escalation.ofFields?_eq_some_iff {fields : List (Option V)} {e : Escalation} :
    ofFields? fields = some e ↔ ∃ a b c d, fields = [a, b, c, d] ∧
      defaultedField Escalation.standard.threshold float? a = some e.threshold ∧
      defaultedField Escalation.standard.span float? b = some e.span ∧
      defaultedField Escalation.standard.exponent float? c = some e.exponent ∧
      defaultedField Escalation.standard.scale float? d = some e.scale := by
  obtain ⟨x₁, x₂, x₃, x₄⟩ := e
  unfold ofFields?
  split
  · simp [Option.bind_eq_some_iff]
  · simp_all

theorem Criticism.Weights.ofFields?_eq_some_iff {fields : List (Option V)} {w : Weights} :
    ofFields? fields = some w ↔ ∃ a b c d e f g h, fields = [a, b, c, d, e, f, g, h] ∧
      defaultedField Weights.standard.impactWeight float? a = some w.impactWeight ∧
      defaultedField Weights.standard.complexityWeight float? b = some w.complexityWeight ∧
      defaultedField Weights.standard.issueWeight float? c = some w.issueWeight ∧
      defaultedField Weights.standard.cycleImpact float? d = some w.cycleImpact ∧
      defaultedField Weights.standard.base float? e = some w.base ∧
      defaultedField Weights.standard.complexityThreshold word? f = some w.complexityThreshold ∧
      defaultedField Weights.standard.duplicationThreshold float? g =
        some w.duplicationThreshold ∧
      defaultedField Weights.standard.sizeThreshold word? h = some w.sizeThreshold := by
  obtain ⟨x₁, x₂, x₃, x₄, x₅, x₆, x₇, x₈⟩ := w
  unfold ofFields?
  split
  · simp [Option.bind_eq_some_iff]
  · simp_all

end

def isPositive (x : Float) : Bool := x.isFinite && !(x ≤ 0.0)

theorem Severity.Weights.fault?_eq_none_iff {w : Weights} :
    w.fault? = none ↔ isNonNegative w.critical = true ∧ isNonNegative w.high = true ∧
      isNonNegative w.medium = true ∧ isNonNegative w.low = true := by
  simp [fault?, Severity.all, weight]

theorem Escalation.fault?_eq_none_iff {e : Escalation} :
    e.fault? = none ↔ isNonNegative e.threshold = true ∧ isPositive e.span = true ∧
      isPositive e.exponent = true ∧ isNonNegative e.scale = true := by
  simp [fault?, coefficients, isNonNegative, isPositive]
  tauto

theorem Criticism.Weights.fault?_eq_none_iff {w : Weights} :
    w.fault? = none ↔ isNonNegative w.impactWeight = true ∧
      isNonNegative w.complexityWeight = true ∧ isNonNegative w.issueWeight = true ∧
      isNonNegative w.cycleImpact = true ∧ isPositive w.base = true ∧
      inUnitInterval w.duplicationThreshold = true := by
  have hplain : (w.plainWeights.find? fun entry => !isNonNegative entry.2) = none ↔
      isNonNegative w.impactWeight = true ∧ isNonNegative w.complexityWeight = true ∧
        isNonNegative w.issueWeight = true ∧ isNonNegative w.cycleImpact = true := by
    simp [plainWeights]
  unfold fault?
  split
  next hfound =>
    have hnot : ¬ _ := mt hplain.mpr (by rw [hfound]; exact Option.some_ne_none _)
    exact ⟨nofun, fun h => absurd ⟨h.1, h.2.1, h.2.2.1, h.2.2.2.1⟩ hnot⟩
  next hnone =>
    obtain ⟨h₁, h₂, h₃, h₄⟩ := hplain.mp hnone
    simp only [h₁, h₂, h₃, h₄, true_and, Bool.or_eq_true, Bool.not_eq_true', decide_eq_true_eq,
      isPositive, Bool.and_eq_true]
    grind

theorem Curve.fault?_eq_none_of_exponent {c d : Curve} (hc : c.fault? = none)
    (hd : d.fault? = none) :
    ({ c with quadraticExponent := d.quadraticExponent } : Curve).fault? = none := by
  have hexponent : d.quadraticExponent.isFinite = true ∧ ¬ d.quadraticExponent ≤ 0.0 := by
    unfold fault? at hd
    split_ifs at hd with hfinite _ _ _ _ _ hexponents
    simp only [coefficients, List.any_cons, Bool.or_eq_true, not_or, Bool.not_eq_true',
      Bool.not_eq_false, decide_eq_true_eq] at hfinite hexponents
    exact ⟨hfinite.2.2.2.2.2.1, hexponents.1⟩
  unfold fault? at hc
  split_ifs at hc with hfinite hstart hbreaks hpenalties hline hpower hexponents hspan hscale
  have hfinite' : ¬ ({ c with quadraticExponent := d.quadraticExponent } : Curve).coefficients.any
      (!·.isFinite) = true := by
    simp_all [coefficients]
  have hexponents' : ¬ (d.quadraticExponent ≤ 0.0 || c.exponentialExponent ≤ 0.0) = true := by
    simp_all
  exact (if_neg hfinite').trans ((if_neg hstart).trans ((if_neg hbreaks).trans
    ((if_neg hpenalties).trans ((if_neg hline).trans ((if_neg hpower).trans
    ((if_neg hexponents').trans ((if_neg hspan).trans (if_neg hscale))))))))

theorem exists_number_laidOver {below above : Option Toml} {value x y : Float}
    (hx : defaultedField value Toml.number? below = some x)
    (hy : defaultedField value Toml.number? above = some y) :
    ∃ z, defaultedField value Toml.number? (laidOver below above) = some z ∧ (z = x ∨ z = y) :=
  exists_defaultedField_laidOver readsLeaves_number? hx hy

theorem Severity.Weights.lastingFields :
    LastingFields (ofFields? (V := Toml)) fun w => w.fault? = none := by
  intro below above x y _ hx hy
  obtain ⟨a, b, c, d, rfl, h₁, h₂, h₃, h₄⟩ := ofFields?_eq_some_iff.mp hx
  obtain ⟨a', b', c', d', rfl, h₁', h₂', h₃', h₄'⟩ := ofFields?_eq_some_iff.mp hy
  obtain ⟨critical, hcritical, e₁⟩ := exists_number_laidOver h₁ h₁'
  obtain ⟨high, hhigh, e₂⟩ := exists_number_laidOver h₂ h₂'
  obtain ⟨medium, hmedium, e₃⟩ := exists_number_laidOver h₃ h₃'
  obtain ⟨low, hlow, e₄⟩ := exists_number_laidOver h₄ h₄'
  refine ⟨⟨critical, high, medium, low⟩, ofFields?_eq_some_iff.mpr
    ⟨_, _, _, _, rfl, hcritical, hhigh, hmedium, hlow⟩, fun hx hy => ?_⟩
  obtain ⟨g₁, g₂, g₃, g₄⟩ := fault?_eq_none_iff.mp hx
  obtain ⟨g₁', g₂', g₃', g₄'⟩ := fault?_eq_none_iff.mp hy
  exact fault?_eq_none_iff.mpr
    ⟨of_either e₁ g₁ g₁', of_either e₂ g₂ g₂', of_either e₃ g₃ g₃', of_either e₄ g₄ g₄'⟩

theorem Escalation.lastingFields :
    LastingFields (ofFields? (V := Toml)) fun e => e.fault? = none := by
  intro below above x y _ hx hy
  obtain ⟨a, b, c, d, rfl, h₁, h₂, h₃, h₄⟩ := ofFields?_eq_some_iff.mp hx
  obtain ⟨a', b', c', d', rfl, h₁', h₂', h₃', h₄'⟩ := ofFields?_eq_some_iff.mp hy
  obtain ⟨threshold, hthreshold, e₁⟩ := exists_number_laidOver h₁ h₁'
  obtain ⟨span, hspan, e₂⟩ := exists_number_laidOver h₂ h₂'
  obtain ⟨exponent, hexponent, e₃⟩ := exists_number_laidOver h₃ h₃'
  obtain ⟨scale, hscale, e₄⟩ := exists_number_laidOver h₄ h₄'
  refine ⟨⟨threshold, span, exponent, scale⟩, ofFields?_eq_some_iff.mpr
    ⟨_, _, _, _, rfl, hthreshold, hspan, hexponent, hscale⟩, fun hx hy => ?_⟩
  obtain ⟨g₁, g₂, g₃, g₄⟩ := fault?_eq_none_iff.mp hx
  obtain ⟨g₁', g₂', g₃', g₄'⟩ := fault?_eq_none_iff.mp hy
  exact fault?_eq_none_iff.mpr
    ⟨of_either e₁ g₁ g₁', of_either e₂ g₂ g₂', of_either e₃ g₃ g₃', of_either e₄ g₄ g₄'⟩

theorem Criticism.Weights.lastingFields :
    LastingFields (ofFields? (V := Toml)) fun w => w.fault? = none := by
  intro below above x y _ hx hy
  obtain ⟨a, b, c, d, e, f, g, h, rfl, h₁, h₂, h₃, h₄, h₅, h₆, h₇, h₈⟩ :=
    ofFields?_eq_some_iff.mp hx
  obtain ⟨a', b', c', d', e', f', g', h', rfl, h₁', h₂', h₃', h₄', h₅', h₆', h₇', h₈'⟩ :=
    ofFields?_eq_some_iff.mp hy
  obtain ⟨impact, himpact, e₁⟩ := exists_number_laidOver h₁ h₁'
  obtain ⟨complexity, hcomplexity, e₂⟩ := exists_number_laidOver h₂ h₂'
  obtain ⟨issue, hissue, e₃⟩ := exists_number_laidOver h₃ h₃'
  obtain ⟨cycle, hcycle, e₄⟩ := exists_number_laidOver h₄ h₄'
  obtain ⟨base, hbase, e₅⟩ := exists_number_laidOver h₅ h₅'
  obtain ⟨complexities, hcomplexities, -⟩ := exists_defaultedField_laidOver readsLeaves_word? h₆ h₆'
  obtain ⟨duplication, hduplication, e₇⟩ := exists_number_laidOver h₇ h₇'
  obtain ⟨sizes, hsizes, -⟩ := exists_defaultedField_laidOver readsLeaves_word? h₈ h₈'
  refine ⟨⟨impact, complexity, issue, cycle, base, complexities, duplication, sizes⟩,
    ofFields?_eq_some_iff.mpr ⟨_, _, _, _, _, _, _, _, rfl, himpact, hcomplexity, hissue, hcycle,
      hbase, hcomplexities, hduplication, hsizes⟩, fun hx hy => ?_⟩
  obtain ⟨g₁, g₂, g₃, g₄, g₅, g₆⟩ := fault?_eq_none_iff.mp hx
  obtain ⟨g₁', g₂', g₃', g₄', g₅', g₆'⟩ := fault?_eq_none_iff.mp hy
  exact fault?_eq_none_iff.mpr
    ⟨of_either e₁ g₁ g₁', of_either e₂ g₂ g₂', of_either e₃ g₃ g₃', of_either e₄ g₄ g₄',
      of_either e₅ g₅ g₅', of_either e₇ g₆ g₆'⟩

theorem Curve.exists_fields_of_ofFields? {fields : List (Option Toml)} {curve : Curve}
    (h : ofFields? fields = some curve) :
    ∃ a b c d e f g h i, fields = [a, b, c, d, e, f, g, h, i] := by
  unfold ofFields? at h
  split at h
  · exact ⟨_, _, _, _, _, _, _, _, _, rfl⟩
  · cases h

-- All coefficients of the upper curve stay, but for an exponent that it leaves out.
theorem Curve.lastingFields : LastingFields (ofFields? (V := Toml)) fun c => c.fault? = none := by
  intro below above x y _ hx hy
  obtain ⟨a, b, c, d, e, f, g, h, i, rfl⟩ := exists_fields_of_ofFields? hx
  obtain ⟨a', b', c', d', e', f', g', h', i', rfl⟩ := exists_fields_of_ofFields? hy
  obtain ⟨-, -, -, -, -, h₆, -, -, -⟩ := ofFields?_eq_some_iff.mp hx
  obtain ⟨h₁', h₂', h₃', h₄', h₅', h₆', h₇', h₈', h₉'⟩ := ofFields?_eq_some_iff.mp hy
  obtain ⟨exponent, hexponent, heither⟩ := exists_number_laidOver h₆ h₆'
  have hkept {a : Option Toml} {v : Float} (ha : requiredField Toml.number? a = some v) :=
    requiredField_laidOver readsLeaves_number? ha
  refine ⟨{ y with quadraticExponent := exponent }, ofFields?_eq_some_iff.mpr
    ⟨hkept h₁' _, hkept h₂' _, hkept h₃' _, hkept h₄' _, hkept h₅' _, hexponent, hkept h₇' _,
      hkept h₈' _, hkept h₉' _⟩, fun hx hy => ?_⟩
  rcases heither with rfl | rfl
  · exact fault?_eq_none_of_exponent hy hx
  · exact hy

/-! ## Shares -/

theorem Toml.numberTable?_cons_eq_some_iff {key : String} {v : Toml} {rest : Entries}
    {shares : List (String × Float)} :
    numberTable? (.table ((key, v) :: rest)) = some shares ↔
      ∃ x more, number? v = some x ∧ numberTable? (.table rest) = some more ∧
        (key, x) :: more = shares := by
  unfold numberTable?
  dsimp only
  rw [List.mapM_cons]
  simp only [Option.bind_eq_bind, Option.bind_eq_some_iff, Option.pure_def, Option.some.injEq]
  constructor
  · rintro ⟨_, ⟨x, hx, rfl⟩, more, hmore, heq⟩
    exact ⟨x, more, hx, hmore, heq⟩
  · rintro ⟨x, more, hx, hmore, heq⟩
    exact ⟨_, ⟨x, hx, rfl⟩, more, hmore, heq⟩

theorem Toml.exists_numberTable?_iff {entries : Entries} :
    (∃ shares, numberTable? (.table entries) = some shares) ↔
      ∀ entry ∈ entries, (number? entry.2).isSome := by
  induction entries with
  | nil => exact ⟨fun _ => by simp, fun _ => ⟨[], rfl⟩⟩
  | cons entry rest ih =>
    rw [List.forall_mem_cons, ← ih, Option.isSome_iff_exists]
    constructor
    · rintro ⟨shares, h⟩
      obtain ⟨x, more, hx, hmore, -⟩ := numberTable?_cons_eq_some_iff.mp h
      exact ⟨⟨x, hx⟩, more, hmore⟩
    · rintro ⟨⟨x, hx⟩, more, hmore⟩
      exact ⟨_, numberTable?_cons_eq_some_iff.mpr ⟨x, more, hx, hmore, rfl⟩⟩

theorem Toml.of_numberTable? {entries : Entries} {shares : List (String × Float)}
    (h : numberTable? (.table entries) = some shares) :
    shares.map Prod.fst = entries.map Prod.fst ∧
      ∀ key, shares.lookup key = (entries.lookup key).bind number? := by
  induction entries generalizing shares with
  | nil =>
    cases h
    simp
  | cons entry rest ih =>
    obtain ⟨k, v⟩ := entry
    obtain ⟨x, more, hx, hmore, rfl⟩ := numberTable?_cons_eq_some_iff.mp h
    obtain ⟨hkeys, hlookup⟩ := ih hmore
    refine ⟨by simp [hkeys], fun key => ?_⟩
    by_cases hkey : key = k
    · rw [hkey, List.lookup_cons_self, List.lookup_cons_self, Option.bind_some, hx]
    · rw [List.lookup_cons, List.lookup_cons, beq_false_of_ne hkey]
      exact hlookup key

/-- Numbers that are written in another order are read in that order. -/
theorem Toml.numberTable?_perm {written written' : Entries} (hperm : written.Perm written') :
    ∀ {shares}, numberTable? (.table written) = some shares →
      ∃ shares', numberTable? (.table written') = some shares' ∧ shares.Perm shares' := by
  induction hperm with
  | nil => exact fun h => ⟨_, h, .refl _⟩
  | cons entry _ ih =>
    intro shares h
    obtain ⟨x, more, hx, hmore, rfl⟩ := numberTable?_cons_eq_some_iff.mp h
    obtain ⟨more', hmore', hperm⟩ := ih hmore
    exact ⟨_, numberTable?_cons_eq_some_iff.mpr ⟨x, more', hx, hmore', rfl⟩, hperm.cons _⟩
  | swap second first rest =>
    intro shares h
    obtain ⟨x, more, hx, hmore, rfl⟩ := numberTable?_cons_eq_some_iff.mp h
    obtain ⟨y, last, hy, hlast, rfl⟩ := numberTable?_cons_eq_some_iff.mp hmore
    have hswapped : numberTable? (.table (first :: rest)) = some ((first.1, x) :: last) :=
      numberTable?_cons_eq_some_iff.mpr ⟨x, last, hx, hlast, rfl⟩
    exact ⟨_, numberTable?_cons_eq_some_iff.mpr ⟨y, _, hy, hswapped, rfl⟩, .swap ..⟩
  | trans _ _ ih ih' =>
    intro shares h
    obtain ⟨between, hbetween, hperm⟩ := ih h
    obtain ⟨shares', hshares', hperm'⟩ := ih' hbetween
    exact ⟨shares', hshares', hperm.trans hperm'⟩

theorem Toml.mem_overlay_of_leaves {base layer : Entries}
    (hleaves : ∀ entry ∈ layer, (number? entry.2).isSome) {entry : String × Toml}
    (h : entry ∈ overlay base layer) : entry ∈ base ∨ entry ∈ layer := by
  induction layer generalizing base with
  | nil => exact .inl h
  | cons first rest ih =>
    obtain ⟨k, v⟩ := first
    obtain ⟨hfirst, hrest⟩ := List.forall_mem_cons.mp hleaves
    obtain ⟨x, hx⟩ := Option.isSome_iff_exists.mp hfirst
    rw [overlay, readsLeaves_number?.layOver_eq hx] at h
    rcases ih hrest h with hmem | hmem
    · rcases mem_putEntry hmem with rfl | hmem
      · exact .inr List.mem_cons_self
      · exact .inl hmem
    · exact .inr (List.mem_cons_of_mem _ hmem)

/-- A table of numbers over another one is read as a table of numbers. -/
theorem Toml.exists_numberTable?_overlay {base layer : Entries} {x y : List (String × Float)}
    (hx : numberTable? (.table base) = some x) (hy : numberTable? (.table layer) = some y) :
    ∃ z, numberTable? (.table (overlay base layer)) = some z := by
  have hnumbers := exists_numberTable?_iff.mp ⟨y, hy⟩
  refine exists_numberTable?_iff.mpr fun entry hentry => ?_
  rcases mem_overlay_of_leaves hnumbers hentry with hmem | hmem
  · exact exists_numberTable?_iff.mp ⟨x, hx⟩ entry hmem
  · exact hnumbers entry hmem

/-- The numbers of the upper table stay as they are. -/
theorem Toml.lookup_numberTable?_overlay {base layer : Entries} {y z : List (String × Float)}
    (hkeys : (layer.map Prod.fst).Nodup) (hy : numberTable? (.table layer) = some y)
    (hz : numberTable? (.table (overlay base layer)) = some z) {key : String} {share : Float}
    (h : y.lookup key = some share) : z.lookup key = some share := by
  rw [(of_numberTable? hy).2] at h
  obtain ⟨v, hv, hnumber⟩ := Option.bind_eq_some_iff.mp h
  rw [(of_numberTable? hz).2, lookup_overlay_eq_laidOver hkeys, hv, laidOver,
    readsLeaves_number?.layOver_eq hnumber, Option.bind_some, hnumber]

/-- Shares of one's own make a weighting if there is one for each dimension and none for anything
else, and the three are accepted. -/
theorem Settings.weightingOfShares_eq_ok_iff {shares : List (String × Float)} {w : Weighting} :
    weightingOfShares shares = .ok w ↔
      (∀ key ∈ shares.map Prod.fst, key ∈ shareNames) ∧
        ∃ c m d, shares.lookup "complexity" = some c ∧
          shares.lookup "maintainability" = some m ∧ shares.lookup "duplication" = some d ∧
          Weighting.custom ⟨c, m, d⟩ = .ok w := by
  have hunknown : ((shares.map (·.1)).filter fun name => !shareNames.contains name).isEmpty =
      true ↔ ∀ key ∈ shares.map Prod.fst, key ∈ shareNames := by
    rw [List.isEmpty_iff, List.filter_eq_nil_iff]
    simp only [Bool.not_eq_true', Bool.not_eq_false, List.contains_iff_mem]
  unfold weightingOfShares
  dsimp only
  split_ifs with hempty
  · rw [Bool.not_eq_true', ← Bool.not_eq_true] at hempty
    exact ⟨nofun, fun h => absurd (hunknown.mpr h.1) hempty⟩
  · rw [Bool.not_eq_true', Bool.not_eq_false] at hempty
    constructor
    · intro h
      obtain ⟨c, hc, h⟩ := bind_eq_ok_iff.mp h
      obtain ⟨m, hm, h⟩ := bind_eq_ok_iff.mp h
      obtain ⟨d, hd, h⟩ := bind_eq_ok_iff.mp h
      -- A share that is missing would be the failure.
      split at hc <;> cases hc
      next hc =>
      split at hm <;> cases hm
      next hm =>
      split at hd <;> cases hd
      next hd =>
      exact ⟨hunknown.mp hempty, c, m, d, hc, hm, hd, h⟩
    · rintro ⟨-, c, m, d, hc, hm, hd, h⟩
      rw [hc, hm, hd]
      exact h

theorem Settings.lasting_numberTable? :
    Lasting Toml.numberTable? fun shares => ∃ w, weightingOfShares shares = .ok w := by
  intro below above x y hproper hx hy
  cases above with
  | table entries =>
    cases below with
    | table beneath =>
      have hkeys := hproper.entries.keys
      obtain ⟨z, hz⟩ := Toml.exists_numberTable?_overlay hx hy
      refine ⟨z, hz, ?_⟩
      rintro ⟨_, hgood⟩ ⟨w, hw⟩
      obtain ⟨hxnames, -⟩ := weightingOfShares_eq_ok_iff.mp hgood
      obtain ⟨hynames, c, m, d, hc, hm, hd, hcustom⟩ := weightingOfShares_eq_ok_iff.mp hw
      obtain ⟨hxkeys, -⟩ := Toml.of_numberTable? hx
      obtain ⟨hykeys, -⟩ := Toml.of_numberTable? hy
      obtain ⟨hzkeys, -⟩ := Toml.of_numberTable? hz
      -- Every share is there above, so none shows from below.
      have hkept {key : String} {share : Float} (h : y.lookup key = some share) :
          z.lookup key = some share := Toml.lookup_numberTable?_overlay hkeys hy hz h
      refine ⟨w, weightingOfShares_eq_ok_iff.mpr ⟨fun key hkey => ?_, c, m, d, hkept hc, hkept hm,
        hkept hd, hcustom⟩⟩
      rw [hzkeys] at hkey
      rcases Toml.mem_keys_overlay hkeys hkey with hmem | hmem
      · exact hxnames key (hxkeys ▸ hmem)
      · exact hynames key (hykeys ▸ hmem)
    | _ => cases hx
  | _ => cases hy

/-! ## Settings -/

namespace Settings

/-- Each setting that is not left open is good by itself. -/
structure Good (s : Settings) : Prop where
  mode : ∀ text ∈ s.mode, ∃ mode, DuplicationMode.ofText text = .ok mode
  severities : ∀ w ∈ s.severities, w.fault? = none
  scheme : ∀ text ∈ s.scheme, ∃ w, Weighting.ofSchemeText text = .ok w
  shares : ∀ shares ∈ s.shares, ∃ w, weightingOfShares shares = .ok w
  criticism : ∀ w ∈ s.criticism, w.fault? = none
  complexity : ∀ c ∈ s.complexity, c.fault? = none
  size : ∀ c ∈ s.size, c.fault? = none
  duplicationLegacy : ∀ c ∈ s.duplicationLegacy, c.fault? = none
  duplicationStrict : ∀ c ∈ s.duplicationStrict, c.fault? = none
  escalation : ∀ e ∈ s.escalation, e.fault? = none

theorem lasting_ofScoring? :
    LastingFields ofScoring? fun mode =>
      ∀ text ∈ mode, ∃ mode, DuplicationMode.ofText text = .ok mode := by
  intro below above x y hproper hx hy
  obtain ⟨a, rfl, ha⟩ := ofScoring?_eq_some_iff.mp hx
  obtain ⟨b, rfl, hb⟩ := ofScoring?_eq_some_iff.mp hy
  obtain ⟨z, hz, hgood⟩ :=
    (readsLeaves_string?.lasting _).openField? (hproper b (by simp)) ha hb
  exact ⟨z, ofScoring?_eq_some_iff.mpr ⟨_, rfl, hz⟩, hgood⟩

theorem lasting_ofIssues? :
    LastingFields ofIssues? fun severities => ∀ w ∈ severities, w.fault? = none := by
  intro below above x y hproper hx hy
  obtain ⟨a, rfl, ha⟩ := ofIssues?_eq_some_iff.mp hx
  obtain ⟨b, rfl, hb⟩ := ofIssues?_eq_some_iff.mp hy
  obtain ⟨z, hz, hgood⟩ :=
    (Severity.Weights.lastingFields.lasting _ _).openField? (hproper b (by simp)) ha hb
  exact ⟨z, ofIssues?_eq_some_iff.mpr ⟨_, rfl, hz⟩, hgood⟩

theorem lasting_ofAggregation? :
    LastingFields ofAggregation? fun weighting =>
      (∀ text ∈ weighting.1, ∃ w, Weighting.ofSchemeText text = .ok w) ∧
        ∀ shares ∈ weighting.2, ∃ w, weightingOfShares shares = .ok w := by
  rintro below above ⟨scheme, shares⟩ ⟨scheme', shares'⟩ hproper hx hy
  obtain ⟨a, b, rfl, ha, hb⟩ := ofAggregation?_eq_some_iff.mp hx
  obtain ⟨a', b', rfl, ha', hb'⟩ := ofAggregation?_eq_some_iff.mp hy
  obtain ⟨z₁, hz₁, g₁⟩ := (readsLeaves_string?.lasting _).openField? (hproper a' (by simp)) ha ha'
  obtain ⟨z₂, hz₂, g₂⟩ := lasting_numberTable?.openField? (hproper b' (by simp)) hb hb'
  exact ⟨(z₁, z₂), ofAggregation?_eq_some_iff.mpr ⟨_, _, rfl, hz₁, hz₂⟩,
    fun hgood hgood' => ⟨g₁ hgood.1 hgood'.1, g₂ hgood.2 hgood'.2⟩⟩

theorem lasting_ofCurves? :
    LastingFields ofCurves? fun curves =>
      (∀ c ∈ curves.1, c.fault? = none) ∧ (∀ c ∈ curves.2.1, c.fault? = none) ∧
        (∀ c ∈ curves.2.2.1, c.fault? = none) ∧ (∀ c ∈ curves.2.2.2.1, c.fault? = none) ∧
          ∀ e ∈ curves.2.2.2.2, e.fault? = none := by
  rintro below above ⟨x₁, x₂, x₃, x₄, x₅⟩ ⟨y₁, y₂, y₃, y₄, y₅⟩ hproper hx hy
  obtain ⟨a, b, c, d, e, rfl, ha, hb, hc, hd, he⟩ := ofCurves?_eq_some_iff.mp hx
  obtain ⟨a', b', c', d', e', rfl, ha', hb', hc', hd', he'⟩ := ofCurves?_eq_some_iff.mp hy
  have hcurve := Curve.lastingFields.lasting .shortened Curve.fieldNames
  have hescalation := Escalation.lastingFields.lasting .shortened Escalation.fieldNames
  obtain ⟨z₁, hz₁, g₁⟩ := hcurve.openField? (hproper a' (by simp)) ha ha'
  obtain ⟨z₂, hz₂, g₂⟩ := hcurve.openField? (hproper b' (by simp)) hb hb'
  obtain ⟨z₃, hz₃, g₃⟩ := hcurve.openField? (hproper c' (by simp)) hc hc'
  obtain ⟨z₄, hz₄, g₄⟩ := hcurve.openField? (hproper d' (by simp)) hd hd'
  obtain ⟨z₅, hz₅, g₅⟩ := hescalation.openField? (hproper e' (by simp)) he he'
  refine ⟨(z₁, z₂, z₃, z₄, z₅),
    ofCurves?_eq_some_iff.mpr ⟨_, _, _, _, _, rfl, hz₁, hz₂, hz₃, hz₄, hz₅⟩, ?_⟩
  rintro ⟨p₁, p₂, p₃, p₄, p₅⟩ ⟨q₁, q₂, q₃, q₄, q₅⟩
  exact ⟨g₁ p₁ q₁, g₂ p₂ q₂, g₃ p₃ q₃, g₄ p₄ q₄, g₅ p₅ q₅⟩

/-- A layer that is read lies readable over settings that are, and what is good in both is good in
the merged settings. -/
theorem exists_ofEntries?_overlay {base layer : Toml.Entries} {x y : Settings}
    (hproper : (Toml.table layer).Proper) (hx : ofEntries? base = some x)
    (hy : ofEntries? layer = some y) :
    ∃ z, ofEntries? (overlay base layer) = some z ∧ (x.Good → y.Good → z.Good) := by
  have hx := readFrom_of_ofEntries? hx
  have hy := readFrom_of_ofEntries? hy
  have hkeys := hproper.entries.keys
  have hsection {key : String} : ∀ v ∈ layer.lookup key, v.Proper :=
    fun v hv => hproper.entries.lookup hv
  obtain ⟨mode, hmode, g₁⟩ := lasting_ofScoring?.openFields? hsection hx.scoring hy.scoring
  obtain ⟨severities, hseverities, g₂⟩ := lasting_ofIssues?.openFields? hsection hx.issues hy.issues
  obtain ⟨⟨scheme, shares⟩, hweighting, g₃⟩ :=
    lasting_ofAggregation?.openFields? hsection hx.aggregation hy.aggregation
  obtain ⟨criticism, hcriticism, g₄⟩ := (Criticism.Weights.lastingFields.lasting _ _).openField?
    hsection hx.criticism hy.criticism
  obtain ⟨⟨complexity, size, legacy, strict, escalation⟩, hcurves, g₅⟩ :=
    lasting_ofCurves?.openFields? hsection hx.curves hy.curves
  refine ⟨⟨mode, severities, scheme, shares, criticism, complexity, size, legacy, strict,
    escalation⟩, ReadFrom.ofEntries? ⟨Toml.keys_overlay hkeys hx.keys hy.keys, ?_, ?_, ?_, ?_, ?_⟩,
    ?_⟩
  · rwa [Toml.lookup_overlay_eq_laidOver hkeys]
  · rwa [Toml.lookup_overlay_eq_laidOver hkeys]
  · rwa [Toml.lookup_overlay_eq_laidOver hkeys]
  · rwa [Toml.lookup_overlay_eq_laidOver hkeys]
  · rwa [Toml.lookup_overlay_eq_laidOver hkeys]
  · intro p q
    obtain ⟨hscheme, hshares⟩ := g₃ ⟨p.scheme, p.shares⟩ ⟨q.scheme, q.shares⟩
    obtain ⟨h₁, h₂, h₃, h₄, h₅⟩ :=
      g₅ ⟨p.complexity, p.size, p.duplicationLegacy, p.duplicationStrict, p.escalation⟩
        ⟨q.complexity, q.size, q.duplicationLegacy, q.duplicationStrict, q.escalation⟩
    exact ⟨g₁ p.mode q.mode, g₂ p.severities q.severities, hscheme, hshares,
      g₄ p.criticism q.criticism, h₁, h₂, h₃, h₄, h₅⟩

theorem good_empty : empty.Good := by
  constructor <;> exact nofun

/-- Layers that are read are also read when they are laid over one another, and what is good in each
is good in the merged settings. -/
theorem exists_ofEntries?_overlayAll {tables : List Toml.Entries}
    (hproper : ∀ entries ∈ tables, (Toml.table entries).Proper)
    (hread : ∀ entries ∈ tables, ∃ s, ofEntries? entries = some s) :
    ∃ z, ofEntries? (Toml.overlayAll tables) = some z ∧
      ((∀ entries ∈ tables, ∀ s, ofEntries? entries = some s → s.Good) → z.Good) := by
  induction tables using List.reverseRecOn with
  | nil => exact ⟨empty, rfl, fun _ => good_empty⟩
  | append_singleton lower top ih =>
    obtain ⟨x, hx, hlower⟩ := ih (fun t ht => hproper t (List.mem_append_left _ ht))
      (fun t ht => hread t (List.mem_append_left _ ht))
    obtain ⟨y, hy⟩ := hread top (by simp)
    obtain ⟨z, hz, hgood⟩ := exists_ofEntries?_overlay (hproper top (by simp)) hx hy
    refine ⟨z, by rwa [Toml.overlayAll_concat], fun h => ?_⟩
    exact hgood (hlower fun t ht => h t (List.mem_append_left _ ht)) (h top (by simp) y hy)

end Settings

end CodeQuality
