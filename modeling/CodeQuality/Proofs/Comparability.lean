import CodeQuality.Proofs.Validation
import CodeQuality.Settings.Basic
import Mathlib.Logic.Basic
import Mathlib.Tactic.SplitIfs

/-!
Which project scores compare.

A project score records the mode and the label of the weighting that it was computed with, and a
change is given between scores with the same mode and the same label. A label stands for shares of
its own if it is one of the two named weightings, but all shares of one's own have the label
`custom`, so that changes are also given between scores under different shares.
-/

namespace CodeQuality

/-! ## Labels -/

namespace Weighting

/-- The ways to come by a weighting: it is a built-in one, or found by its name, or made of shares
of one's own, or asked for by settings. -/
inductive Made : Weighting → Prop where
  | v1 : Made v1
  | v2 : Made v2
  | named {text : String} {w : Weighting} (h : ofSchemeText text = .ok w) : Made w
  | custom {shares : Dimensions} {w : Weighting} (h : Weighting.custom shares = .ok w) : Made w
  | settings {s : Settings} {w : Weighting} (h : s.weighting = .ok w) : Made w

theorem of_custom_eq_ok {shares : Dimensions} {w : Weighting} (h : custom shares = .ok w) :
    w.scheme = .custom := by
  unfold custom at h
  dsimp only at h
  split at h
  next => cases h
  next =>
    obtain rfl := Except.ok.inj h
    rfl

theorem of_ofSchemeText_eq_ok {text : String} {w : Weighting} (h : ofSchemeText text = .ok w) :
    w = v1 ∨ w = v2 := by
  unfold ofSchemeText at h
  split at h
  · exact .inl (Except.ok.inj h).symm
  · exact .inr (Except.ok.inj h).symm
  · cases h

theorem of_weightingOfShares_eq_ok {shares : List (String × Float)} {w : Weighting}
    (h : Settings.weightingOfShares shares = .ok w) : w.scheme = .custom := by
  unfold Settings.weightingOfShares at h
  dsimp only at h
  split at h
  · cases h
  · rw [bind_eq_ok_iff] at h
    obtain ⟨complexity, -, h⟩ := h
    rw [bind_eq_ok_iff] at h
    obtain ⟨maintainability, -, h⟩ := h
    rw [bind_eq_ok_iff] at h
    obtain ⟨duplication, -, h⟩ := h
    exact of_custom_eq_ok h

theorem Made.cases {w : Weighting} (h : w.Made) : w = .v1 ∨ w = .v2 ∨ w.scheme = .custom := by
  cases h with
  | v1 => exact .inl rfl
  | v2 => exact .inr (.inl rfl)
  | named h => exact (of_ofSchemeText_eq_ok h).imp_right .inl
  | custom h => exact .inr (.inr (of_custom_eq_ok h))
  | @settings s _ h =>
    unfold Settings.weighting at h
    split at h
    · cases h
    · exact (of_ofSchemeText_eq_ok h).imp_right .inl
    · exact .inr (.inr (of_weightingOfShares_eq_ok h))
    · exact .inr (.inl (Except.ok.inj h).symm)

/-- Of weightings that are made, equal labels tell equal shares, apart from the label `custom`. -/
theorem Made.eq_of_scheme_eq {w w' : Weighting} (h : w.Made) (h' : w'.Made)
    (hscheme : w.scheme = w'.scheme) (hne : w.scheme ≠ .custom) : w = w' := by
  have hne' : w'.scheme ≠ .custom := hscheme ▸ hne
  rcases h.cases with rfl | rfl | hcustom
  · rcases h'.cases with rfl | rfl | hcustom'
    · rfl
    · cases hscheme
    · exact absurd hcustom' hne'
  · rcases h'.cases with rfl | rfl | hcustom'
    · cases hscheme
    · rfl
    · exact absurd hcustom' hne'
  · exact absurd hcustom hne

end Weighting

/-! ## Changes -/

/-- The same three numbers; the two zeros are one number. -/
def Dimensions.sameNumbers (a b : Dimensions) : Bool :=
  a.complexity == b.complexity && a.maintainability == b.maintainability &&
    a.duplication == b.duplication

namespace ProjectScore

theorem exists_change_iff (current baseline : ProjectScore) :
    (∃ change, current.changeSince baseline = .ok change) ↔
      current.mode = baseline.mode ∧ current.scheme = baseline.scheme := by
  unfold changeSince
  split_ifs with hmode hscheme
  · simp [hmode]
  · simp [hscheme]
  · exact ⟨fun _ => ⟨not_not.mp hmode, not_not.mp hscheme⟩, fun _ => ⟨_, rfl⟩⟩

theorem changeSince_of_mode_ne {current baseline : ProjectScore}
    (h : current.mode ≠ baseline.mode) :
    current.changeSince baseline = .error (.modeMismatch current.mode baseline.mode) := by
  unfold changeSince
  rw [if_pos h]

theorem changeSince_of_scheme_ne {current baseline : ProjectScore}
    (hmode : current.mode = baseline.mode) (h : current.scheme ≠ baseline.scheme) :
    current.changeSince baseline =
      .error (.weightingMismatch current.scheme baseline.scheme) := by
  unfold changeSince
  rw [if_neg (not_not.mpr hmode), if_pos h]

/-- The rule for changes between scores under two modes and two weightings: there is one only under
the same mode and the same shares, and otherwise the difference is named, the mode first. -/
structure Guards (outcome : Except Failure Change) (w w' : Weighting)
    (mode mode' : DuplicationMode) : Prop where
  comparable : ∀ change, outcome = .ok change → mode = mode' ∧ w.shares.sameNumbers w'.shares = true
  modes : mode ≠ mode' → outcome = .error (.modeMismatch mode mode')
  weightings : mode = mode' → w.shares.sameNumbers w'.shares = false →
    outcome = .error (.weightingMismatch w.scheme w'.scheme)

theorem guards_iff (files files' : List FileScore) (w w' : Weighting)
    (mode mode' : DuplicationMode) :
    Guards ((ofFiles files w mode).changeSince (ofFiles files' w' mode')) w w' mode mode' ↔
      (mode = mode' → w.scheme = w'.scheme → w.shares.sameNumbers w'.shares = true) := by
  -- A score carries the mode and the label that it was computed with.
  have hchange := exists_change_iff (ofFiles files w mode) (ofFiles files' w' mode')
  constructor
  · intro h hmode hscheme
    obtain ⟨change, hok⟩ := hchange.mpr ⟨hmode, hscheme⟩
    exact (h.comparable change hok).2
  · intro h
    refine ⟨?_, fun hmode => changeSince_of_mode_ne hmode, ?_⟩
    · intro change hok
      obtain ⟨hmode, hscheme⟩ := hchange.mp ⟨change, hok⟩
      exact ⟨hmode, h hmode hscheme⟩
    · intro hmode hshares
      apply changeSince_of_scheme_ne hmode
      intro hscheme
      rw [h hmode hscheme] at hshares
      cases hshares

/-- The rule for changes holds for two scores unless they have one mode and one label but different
shares, and weightings that are made have that only if both are labelled `custom`. -/
theorem changeSince_spec (files files' : List FileScore) (w w' : Weighting)
    (mode mode' : DuplicationMode) :
    (Guards ((ofFiles files w mode).changeSince (ofFiles files' w' mode')) w w' mode mode' ↔
      (mode = mode' → w.scheme = w'.scheme → w.shares.sameNumbers w'.shares = true)) ∧
    (w.Made → w'.Made → ¬ (w.scheme = .custom ∧ w'.scheme = .custom) →
      Guards ((ofFiles files w mode).changeSince (ofFiles files' w' mode')) w w' mode mode') := by
  have hiff := guards_iff files files' w w' mode mode'
  refine ⟨hiff, fun hw hw' hnamed => hiff.mpr ?_⟩
  intro _ hscheme
  have hne : w.scheme ≠ .custom := fun hcustom => hnamed ⟨hcustom, hscheme ▸ hcustom⟩
  obtain rfl := hw.eq_of_scheme_eq hw' hscheme hne
  rcases hw.cases with rfl | rfl | hcustom
  · decide
  · decide
  · exact absurd hcustom hne

/-- The scores of a file of which only the complexity is too high. -/
def branchingScores : FileScore := ⟨"a", 28.0, 100.0, 100.0, 28.0, .ofFloat 61.5, -0.0, 0.0, 1⟩

def complexityHeavy : Weighting := ⟨⟨0.5, 0.3, 0.2⟩, .custom⟩

def duplicationHeavy : Weighting := ⟨⟨0.2, 0.3, 0.5⟩, .custom⟩

/-- A change is given between scores under different shares if both weightings are one's own. -/
theorem exists_not_guards :
    ¬ ∀ (files files' : List FileScore) (w w' : Weighting) (mode mode' : DuplicationMode),
      w.validate = .ok () → w'.validate = .ok () →
        Guards ((ofFiles files w mode).changeSince (ofFiles files' w' mode')) w w' mode mode' := by
  intro h
  have hguards :=
    h [branchingScores] [branchingScores] complexityHeavy duplicationHeavy .strict .strict rfl rfl
  have hsame := (guards_iff _ _ _ _ _ _).mp hguards rfl rfl
  revert hsame
  decide

theorem changeSince_spec_named :
    Weighting.v1.Made ∧ Weighting.v2.Made ∧
      (ofFiles [branchingScores] .v1 .strict).changeSince (ofFiles [branchingScores] .v2 .strict) =
        .error (.weightingMismatch .v1 .v2) := by
  have hspec := changeSince_spec [branchingScores] [branchingScores] .v1 .v2 .strict .strict
  have hguards := hspec.2 .v1 .v2 (by decide)
  exact ⟨.v1, .v2, hguards.weightings rfl (by decide)⟩

end ProjectScore

end CodeQuality
