import CodeQuality.Proofs.Double.Sums
import CodeQuality.Proofs.Double.Tolerance
import CodeQuality.Proofs.OverallScores
import CodeQuality.Proofs.Settings.MergedReadings
import CodeQuality.Proofs.Text.ByteOrder

/-!
Shares of one's own.

They are accepted exactly if they name the three dimensions and nothing else, each is a number from
zero to one, and their sum is within `1e-9` of one. What is wrong is reported in a fixed order, so
that neither the outcome nor its text depends on the order of the entries.
-/

namespace CodeQuality

open Double

/-! ## Numbers -/

namespace Dimensions

-- The sum in doubles, from complexity to duplication.
def total (d : Dimensions) : Float := d.complexity + d.maintainability + d.duplication

/-- The sum in doubles is within `1e-9` of one, without any further rounding. -/
def MakesOne (d : Dimensions) : Prop := ∃ r : ℝ, Denotes d.total r ∧ |r - 1| ≤ 1e-9

theorem InUnit.sum_eq {d : Dimensions} (h : d.InUnit) (scheme : Scheme) :
    (⟨d, scheme⟩ : Weighting).sum = d.total := by
  have hmem : d.complexity ∈ d.toList := List.mem_cons_self
  show -0.0 + d.complexity + d.maintainability + d.duplication = d.total
  rw [neg_zero_add (h _ hmem).1]
  rfl

theorem InUnit.exists_total {d : Dimensions} (h : d.InUnit) :
    ∃ r : ℝ, Denotes d.total r ∧ 0 ≤ r ∧ r ≤ 100 := by
  obtain ⟨⟨hc, hc'⟩, ⟨hm, hm'⟩, hd, hd'⟩ :
      (0.0 ≤ d.complexity ∧ d.complexity ≤ 1.0) ∧
      (0.0 ≤ d.maintainability ∧ d.maintainability ≤ 1.0) ∧
      0.0 ≤ d.duplication ∧ d.duplication ≤ 1.0 :=
    ⟨h _ (by simp [toList]), h _ (by simp [toList]), h _ (by simp [toList])⟩
  have hpair := Double.le_trans hc (le_add hc hm)
  have hlow : 0.0 ≤ d.total := Double.le_trans hpair (le_add hpair hd)
  have hthree : d.total ≤ 1.0 + 1.0 + 1.0 := add_mono hpair hd (add_mono hc hm hc' hm') hd'
  have hhigh : d.total ≤ 100.0 := Double.le_trans hthree (by decide)
  obtain ⟨u, hu, hu₀⟩ := exists_of_nonneg hlow
  obtain ⟨u', hu', hu₁⟩ := exists_of_le_hundred hhigh
  rw [hu'.unique hu, hundred_eq] at hu₁
  obtain ⟨r, rfl, hr₀, hr₁⟩ := exists_real hu₀ hu₁
  exact ⟨r, hu, hr₀, by exact_mod_cast hr₁⟩

theorem InUnit.tolerance_lt_iff {d : Dimensions} (h : d.InUnit) (scheme : Scheme) :
    1e-9 < ((⟨d, scheme⟩ : Weighting).sum - 1.0).abs ↔ ¬ d.MakesOne := by
  obtain ⟨r, hr, hr₀, hr₁⟩ := h.exists_total
  rw [h.sum_eq, hr.tolerance_lt_iff hr₀ hr₁, ← not_le, not_iff_not]
  constructor
  · exact fun hle => ⟨r, hr, hle⟩
  · rintro ⟨s, hs, hle⟩
    rwa [EReal.coe_injective (hr.unique hs)]

end Dimensions

namespace Weighting

variable {d : Dimensions}

theorem custom_of_not_inUnit (h : ¬ d.InUnit) : custom d = .error .shareOutOfRange := by
  have hrange := mt Dimensions.any_outOfRange_iff.mp h
  unfold custom fault?
  dsimp only
  rw [if_pos (Bool.not_eq_false _ ▸ hrange)]

theorem custom_of_not_makesOne (h : d.InUnit) (hsum : ¬ d.MakesOne) :
    custom d = .error (.wrongSum d.total) := by
  unfold custom fault?
  dsimp only
  rw [if_neg (Bool.eq_false_iff.mp (Dimensions.any_outOfRange_iff.mpr h)),
    if_pos ((h.tolerance_lt_iff .custom).mpr hsum), h.sum_eq]

theorem custom_of_makesOne (h : d.InUnit) (hsum : d.MakesOne) : custom d = .ok ⟨d, .custom⟩ := by
  unfold custom fault?
  dsimp only
  rw [if_neg (Bool.eq_false_iff.mp (Dimensions.any_outOfRange_iff.mpr h)),
    if_neg fun hlt => (h.tolerance_lt_iff .custom).mp hlt hsum]

theorem custom_eq_ok_iff {w : Weighting} :
    custom d = .ok w ↔ w = ⟨d, .custom⟩ ∧ d.InUnit ∧ d.MakesOne := by
  by_cases hunit : d.InUnit
  · by_cases hsum : d.MakesOne
    · simp [custom_of_makesOne hunit hsum, hunit, hsum, eq_comm]
    · simp [custom_of_not_makesOne hunit hsum, hsum]
  · simp [custom_of_not_inUnit hunit, hunit]

end Weighting

namespace Settings

variable {shares : List (String × Float)}

/-! ## Names -/

/-- The names that no dimension has, in ascending order. -/
def unknownNames (shares : List (String × Float)) : List String :=
  ((shares.map (·.1)).filter fun name => !shareNames.contains name).mergeSort (· ≤ ·)

theorem mem_unknownNames_iff {name : String} :
    name ∈ unknownNames shares ↔ name ∈ shares.map Prod.fst ∧ name ∉ shareNames := by
  unfold unknownNames
  rw [List.mem_mergeSort, List.mem_filter, Bool.not_eq_true', Bool.eq_false_iff, ne_eq,
    List.contains_iff_mem]

theorem sorted_unknownNames (shares : List (String × Float)) :
    (unknownNames shares).Pairwise fun a b => decide (a ≤ b) = true := by
  refine List.pairwise_mergeSort (fun a b c hab hbc => ?_) (fun a b => ?_) _
  · exact decide_eq_true ((of_decide_eq_true hab).trans (of_decide_eq_true hbc))
  · simpa using le_total a b

/-- Distinct names that are unknown come in strictly ascending order of their bytes. -/
theorem pairwise_unknownNames (hkeys : (shares.map Prod.fst).Nodup) :
    (unknownNames shares).Pairwise fun a b => bytes a < bytes b := by
  have hdistinct : (unknownNames shares).Nodup :=
    (List.mergeSort_perm _ _).nodup_iff.mpr (hkeys.filter _)
  refine ((sorted_unknownNames shares).and hdistinct).imp fun h => ?_
  exact bytes_lt (lt_of_le_of_ne (of_decide_eq_true h.1) h.2)

theorem unknownNames_perm {shares' : List (String × Float)} (hperm : shares.Perm shares') :
    unknownNames shares = unknownNames shares' := by
  have hnames : (unknownNames shares).Perm (unknownNames shares') :=
    ((List.mergeSort_perm _ _).trans ((hperm.map Prod.fst).filter _)).trans
      (List.mergeSort_perm _ _).symm
  refine List.Perm.eq_of_pairwise (fun a b _ _ hab hba => ?_) (sorted_unknownNames shares)
    (sorted_unknownNames shares') hnames
  exact le_antisymm (of_decide_eq_true hab) (of_decide_eq_true hba)

/-- The first dimension that has no share, in the order of the dimensions. -/
def firstMissing? (shares : List (String × Float)) : Option String :=
  shareNames.find? fun name => name ∉ shares.map Prod.fst

-- The share of a dimension, or the fault that it is missing.
def requiredShare (shares : List (String × Float)) (name : String) :
    Except Weighting.Fault Float :=
  match shares.lookup name with
  | some x => .ok x
  | none => .error (.missingKey name)

theorem weightingOfShares_eq (shares : List (String × Float)) :
    weightingOfShares shares =
      if unknownNames shares = [] then do
        Weighting.custom ⟨← requiredShare shares "complexity",
          ← requiredShare shares "maintainability", ← requiredShare shares "duplication"⟩
      else .error (.unknownKeys (unknownNames shares)) := by
  have hempty : unknownNames shares = [] ↔
      ((shares.map (·.1)).filter fun name => !shareNames.contains name).isEmpty = true := by
    rw [List.isEmpty_iff, ← List.length_eq_zero_iff, ← List.length_eq_zero_iff, unknownNames,
      List.length_mergeSort]
  unfold weightingOfShares
  dsimp only
  split_ifs with h₁ h₂ h₂
  · rw [hempty, ← Bool.not_eq_false'] at h₂
    exact absurd h₁ (Bool.not_eq_true _ ▸ h₂)
  · rfl
  · rfl
  · exact absurd (hempty.mpr (by simpa using h₁)) h₂

/-- The names of some shares are the three dimensions, and these are their values. -/
structure Names (shares : List (String × Float)) (d : Dimensions) : Prop where
  keys : ∀ name, name ∈ shares.map Prod.fst ↔ name ∈ shareNames
  complexity : ("complexity", d.complexity) ∈ shares
  maintainability : ("maintainability", d.maintainability) ∈ shares
  duplication : ("duplication", d.duplication) ∈ shares

theorem Names.unique (hkeys : (shares.map Prod.fst).Nodup) {d d' : Dimensions}
    (h : Names shares d) (h' : Names shares d') : d = d' := by
  have heq {key : String} {x y : Float} (hx : (key, x) ∈ shares) (hy : (key, y) ∈ shares) :
      x = y := by
    rw [← lookup_eq_some_iff_mem hkeys] at hx hy
    exact Option.some.inj (hx.symm.trans hy)
  rcases d with ⟨c, m, u⟩
  rcases d' with ⟨c', m', u'⟩
  rw [Dimensions.mk.injEq]
  exact ⟨heq h.complexity h'.complexity, heq h.maintainability h'.maintainability,
    heq h.duplication h'.duplication⟩

theorem unknownNames_eq_nil_iff :
    unknownNames shares = [] ↔ ∀ name ∈ shares.map Prod.fst, name ∈ shareNames := by
  rw [List.eq_nil_iff_forall_not_mem]
  simp only [mem_unknownNames_iff, not_and, not_not]

theorem Names.unknownNames_eq_nil {d : Dimensions} (h : Names shares d) :
    unknownNames shares = [] :=
  unknownNames_eq_nil_iff.mpr fun name => (h.keys name).mp

theorem Names.firstMissing?_eq_none {d : Dimensions} (h : Names shares d) :
    firstMissing? shares = none := by
  refine List.find?_eq_none.mpr fun name hname => ?_
  simpa using (h.keys name).mpr hname

theorem requiredShare_cases (shares : List (String × Float)) (name : String) :
    name ∉ shares.map Prod.fst ∧ requiredShare shares name = .error (.missingKey name) ∨
      ∃ x, name ∈ shares.map Prod.fst ∧ (name, x) ∈ shares ∧
        requiredShare shares name = .ok x := by
  unfold requiredShare
  cases h : shares.lookup name with
  | none => exact .inl ⟨lookup_eq_none_iff_not_mem.mp h, rfl⟩
  | some x =>
    have hmem := mem_of_lookup_eq_some h
    exact .inr ⟨x, List.mem_map_of_mem hmem, hmem, rfl⟩

/-- Unknown names come before a missing one, and a missing one before all numbers. -/
theorem weightingOfShares_cases (shares : List (String × Float)) :
    unknownNames shares ≠ [] ∧
        weightingOfShares shares = .error (.unknownKeys (unknownNames shares)) ∨
      (∃ name, unknownNames shares = [] ∧ firstMissing? shares = some name ∧
        weightingOfShares shares = .error (.missingKey name)) ∨
      ∃ d, Names shares d ∧ weightingOfShares shares = Weighting.custom d := by
  rw [weightingOfShares_eq]
  by_cases hknown : unknownNames shares = []
  swap
  · exact .inl ⟨hknown, if_neg hknown⟩
  rw [if_pos hknown]
  right
  unfold firstMissing? shareNames
  -- One case for each dimension that is missing, in their order, and one for none.
  rcases requiredShare_cases shares "complexity" with ⟨hc, hfault⟩ | ⟨c, hc, hcomplexity, hfound⟩
  · exact .inl ⟨_, hknown, List.find?_cons_of_pos (by simpa using hc), by rw [hfault]; rfl⟩
  rw [hfound, List.find?_cons_of_neg (by simpa using hc)]
  rcases requiredShare_cases shares "maintainability" with
    ⟨hm, hfault⟩ | ⟨m, hm, hmaintainability, hfound⟩
  · exact .inl ⟨_, hknown, List.find?_cons_of_pos (by simpa using hm), by rw [hfault]; rfl⟩
  rw [hfound, List.find?_cons_of_neg (by simpa using hm)]
  rcases requiredShare_cases shares "duplication" with ⟨hd, hfault⟩ | ⟨d, hd, hduplication, hfound⟩
  · exact .inl ⟨_, hknown, List.find?_cons_of_pos (by simpa using hd), by rw [hfault]; rfl⟩
  rw [hfound]
  refine .inr ⟨⟨c, m, d⟩, ⟨fun name => ⟨unknownNames_eq_nil_iff.mp hknown name, ?_⟩, hcomplexity,
    hmaintainability, hduplication⟩, rfl⟩
  intro hname
  simp only [shareNames, List.mem_cons, List.not_mem_nil, or_false] at hname
  rcases hname with rfl | rfl | rfl
  · exact hc
  · exact hm
  · exact hd

theorem weightingOfShares_of_unknown (h : unknownNames shares ≠ []) :
    weightingOfShares shares = .error (.unknownKeys (unknownNames shares)) := by
  rw [weightingOfShares_eq, if_neg h]

theorem weightingOfShares_of_missing (hknown : unknownNames shares = []) {name : String}
    (hfirst : firstMissing? shares = some name) :
    weightingOfShares shares = .error (.missingKey name) := by
  rcases weightingOfShares_cases shares with ⟨hne, -⟩ | ⟨other, -, hother, heq⟩ | ⟨d, hd, -⟩
  · exact absurd hknown hne
  · rw [hfirst] at hother
    cases hother
    exact heq
  · rw [hd.firstMissing?_eq_none] at hfirst
    cases hfirst

theorem weightingOfShares_of_names (hkeys : (shares.map Prod.fst).Nodup) {d : Dimensions}
    (hd : Names shares d) : weightingOfShares shares = Weighting.custom d := by
  rcases weightingOfShares_cases shares with ⟨hne, -⟩ | ⟨name, -, hmissing, -⟩ | ⟨d', hd', heq⟩
  · exact absurd hd.unknownNames_eq_nil hne
  · rw [hd.firstMissing?_eq_none] at hmissing
    cases hmissing
  · rw [heq, hd'.unique hkeys hd]

theorem weightingOfShares_perm {shares' : List (String × Float)} (hperm : shares.Perm shares')
    (hkeys : (shares.map Prod.fst).Nodup) :
    weightingOfShares shares = weightingOfShares shares' := by
  have hshare (name : String) : requiredShare shares name = requiredShare shares' name := by
    rw [requiredShare, requiredShare, lookup_perm hperm hkeys]
  rw [weightingOfShares_eq, weightingOfShares_eq, unknownNames_perm hperm, hshare, hshare, hshare]

/-! ## What becomes of the shares -/

/-- Shares that make a weighting: they name the three dimensions and nothing else, each is a number
from zero to one, and their sum is one within the tolerance. -/
structure Complete (shares : List (String × Float)) (d : Dimensions) : Prop
    extends Names shares d where
  inUnit : d.InUnit
  makesOne : d.MakesOne

theorem weightingOfShares_eq_ok_iff_complete (hkeys : (shares.map Prod.fst).Nodup)
    {w : Weighting} :
    weightingOfShares shares = .ok w ↔ w.scheme = .custom ∧ Complete shares w.shares := by
  constructor
  · intro h
    rcases weightingOfShares_cases shares with ⟨-, hbad⟩ | ⟨name, -, -, hbad⟩ | ⟨d, hd, hcustom⟩
    · rw [hbad] at h
      cases h
    · rw [hbad] at h
      cases h
    · rw [hcustom, Weighting.custom_eq_ok_iff] at h
      obtain ⟨rfl, hunit, hone⟩ := h
      exact ⟨rfl, hd, hunit, hone⟩
  · rintro ⟨hscheme, hd, hunit, hone⟩
    rw [weightingOfShares_of_names hkeys hd, Weighting.custom_eq_ok_iff]
    exact ⟨by rw [← hscheme], hunit, hone⟩

/-- The weights are refused with this text. -/
def RefusedWith (outcome : Except Failure Weighting) (text : String) : Prop :=
  ∃ fault, outcome = .error (.weighting fault) ∧ fault.message = text

/-- Complete shares make the weighting that they are; all others are refused, for what comes first:
all unknown names together, then the first missing one, then the range and then the sum. -/
structure Judged (shares : List (String × Float)) (outcome : Except Failure Weighting) :
    Prop where
  accepted : ∀ w, outcome = .ok w ↔ w.scheme = .custom ∧ Complete shares w.shares
  refused : (¬ ∃ d, Complete shares d) → ∃ text, RefusedWith outcome text
  unknown : (∃ name ∈ shares.map Prod.fst, name ∉ shareNames) →
    ∃ names : List String,
      (∀ name, name ∈ names ↔ name ∈ shares.map Prod.fst ∧ name ∉ shareNames) ∧
      names.Pairwise (fun a b => bytes a < bytes b) ∧
      RefusedWith outcome
        ("aggregation.weights contains unknown key(s): " ++ ", ".intercalate names)
  missing : (∀ name ∈ shares.map Prod.fst, name ∈ shareNames) →
    ∀ name, firstMissing? shares = some name →
      RefusedWith outcome ("aggregation.weights." ++ name ++ " is missing")
  outOfRange : ∀ d, Names shares d → ¬ d.InUnit →
    RefusedWith outcome "each weight must be between 0.0 and 1.0"
  wrongSum : ∀ d, Names shares d → d.InUnit → ¬ d.MakesOne →
    RefusedWith outcome ("weights must sum to 1.0 (found " ++ fixedPlaces 3 d.total ++ ")")

theorem judged (hkeys : (shares.map Prod.fst).Nodup) :
    Judged shares ((weightingOfShares shares).mapError .weighting) where
  accepted w := by
    rw [← weightingOfShares_eq_ok_iff_complete hkeys]
    cases weightingOfShares shares <;> simp [Except.mapError]
  refused hnone := by
    cases h : weightingOfShares shares with
    | error fault => exact ⟨_, fault, rfl, rfl⟩
    | ok w =>
      have hcomplete := ((weightingOfShares_eq_ok_iff_complete hkeys).mp h).2
      exact absurd ⟨_, hcomplete⟩ hnone
  unknown hunknown := by
    have hne : unknownNames shares ≠ [] := by
      rw [ne_eq, unknownNames_eq_nil_iff]
      exact fun hknown => hunknown.elim fun name h => h.2 (hknown name h.1)
    refine ⟨unknownNames shares, fun name => mem_unknownNames_iff, pairwise_unknownNames hkeys, ?_⟩
    rw [weightingOfShares_of_unknown hne]
    exact ⟨_, rfl, rfl⟩
  missing hknown name hfirst := by
    rw [weightingOfShares_of_missing (unknownNames_eq_nil_iff.mpr hknown) hfirst]
    exact ⟨_, rfl, rfl⟩
  outOfRange d hd hunit := by
    rw [weightingOfShares_of_names hkeys hd, Weighting.custom_of_not_inUnit hunit]
    exact ⟨_, rfl, rfl⟩
  wrongSum d hd hunit hone := by
    rw [weightingOfShares_of_names hkeys hd, Weighting.custom_of_not_makesOne hunit hone]
    exact ⟨_, rfl, rfl⟩

/-- Shares of one's own that no scheme is set beside are accepted exactly if they are complete, and
refused for what comes first otherwise. Neither depends on the order of the entries, be it that of
the shares or that in which they were written. -/
theorem weighting_customShares {s : Settings} {shares : List (String × Float)}
    (hscheme : s.scheme = none) (hshares : s.shares = some shares)
    (hkeys : (shares.map Prod.fst).Nodup) :
    Judged shares (s.weighting.mapError .weighting) ∧
      (∀ (s' : Settings) (shares' : List (String × Float)), s'.scheme = none →
        s'.shares = some shares' → shares'.Perm shares → s'.weighting = s.weighting) ∧
      ∀ written written' : Toml.Entries, Toml.numberTable? (.table written) = some shares →
        written'.Perm written →
          ∃ shares', Toml.numberTable? (.table written') = some shares' ∧
            ∀ s' : Settings, s'.scheme = none → s'.shares = some shares' →
              s'.weighting = s.weighting := by
  have hweighting {s : Settings} {shares : List (String × Float)} (hscheme : s.scheme = none)
      (hshares : s.shares = some shares) : s.weighting = weightingOfShares shares := by
    rw [weighting, hscheme, hshares]
  rw [hweighting hscheme hshares]
  refine ⟨judged hkeys, ?_, ?_⟩
  · intro s' shares' hscheme' hshares' hperm
    rw [hweighting hscheme' hshares', weightingOfShares_perm hperm.symm hkeys]
  · intro written written' hread hperm
    obtain ⟨shares', hread', hperm'⟩ := Toml.numberTable?_perm hperm.symm hread
    refine ⟨shares', hread', fun s' hscheme' hshares' => ?_⟩
    rw [hweighting hscheme' hshares', weightingOfShares_perm hperm' hkeys]

/-- Shares in an order that is not that of the dimensions. -/
def ownShares : List (String × Float) :=
  [("duplication", 0.25), ("complexity", 0.5), ("maintainability", 0.25)]

def ownSettings : Settings := { empty with shares := some ownShares }

theorem weighting_customShares_own :
    ownSettings.scheme = none ∧ ownSettings.shares = some ownShares ∧
      (ownShares.map Prod.fst).Nodup ∧ Complete ownShares ⟨0.5, 0.25, 0.25⟩ ∧
      { ownSettings with shares := some ownShares.reverse }.weighting =
        .ok ⟨⟨0.5, 0.25, 0.25⟩, .custom⟩ := by
  have hkeys : (ownShares.map Prod.fst).Nodup := by decide
  obtain ⟨hjudged, hperm, -⟩ := weighting_customShares (s := ownSettings) rfl rfl hkeys
  have hweighting : ownSettings.weighting = .ok ⟨⟨0.5, 0.25, 0.25⟩, .custom⟩ := rfl
  refine ⟨rfl, rfl, hkeys, ((hjudged.accepted _).mp (by rw [hweighting]; rfl)).2, ?_⟩
  rw [hperm _ ownShares.reverse rfl rfl ownShares.reverse_perm, hweighting]

end Settings

end CodeQuality
