import CodeQuality.Proofs.Comparability
import CodeQuality.Proofs.Settings.MergedReadings

/-!
What it takes for settings to make a profile.

Each setting is looked at by itself, apart from one rule between two of them: a scheme and shares of
one's own exclude each other. The mode is independent of everything else.
-/

namespace CodeQuality

/-! ## Parts -/

theorem DuplicationMode.ofText_name (mode : DuplicationMode) : ofText mode.name = .ok mode := by
  cases mode <;> rfl

theorem Weighting.fault?_of_custom {shares : Dimensions} {w : Weighting}
    (h : custom shares = .ok w) : w.fault? = none := by
  unfold custom at h
  dsimp only at h
  split at h
  next => cases h
  next hfault =>
    cases h
    exact hfault

theorem forall_fault?_iff_getD {α β : Type} {fault? : α → Option β} {value : α}
    (h : fault? value = none) (setting : Option α) :
    (∀ a ∈ setting, fault? a = none) ↔ fault? (setting.getD value) = none := by
  cases setting <;> simp [h]

namespace Settings

theorem exists_duplicationMode_iff (s : Settings) :
    (∃ mode, s.duplicationMode = .ok mode) ↔
      ∀ text ∈ s.mode, ∃ mode, DuplicationMode.ofText text = .ok mode := by
  unfold duplicationMode
  cases s.mode <;> simp

theorem exists_weighting_iff (s : Settings) :
    (∃ w, s.weighting = .ok w) ↔
      ¬ (s.scheme.isSome ∧ s.shares.isSome) ∧
        (∀ text ∈ s.scheme, ∃ w, Weighting.ofSchemeText text = .ok w) ∧
        ∀ shares ∈ s.shares, ∃ w, weightingOfShares shares = .ok w := by
  unfold weighting
  cases s.scheme <;> cases s.shares <;> simp

theorem weighting_of_both {s : Settings} (hscheme : s.scheme.isSome) (hshares : s.shares.isSome) :
    s.weighting = .error .schemeAndShares := by
  obtain ⟨scheme, hscheme⟩ := Option.isSome_iff_exists.mp hscheme
  obtain ⟨shares, hshares⟩ := Option.isSome_iff_exists.mp hshares
  rw [weighting, hscheme, hshares]

theorem fault?_of_weighting {s : Settings} {w : Weighting} (h : s.weighting = .ok w) :
    w.fault? = none := by
  unfold weighting at h
  split at h
  · cases h
  · rcases Weighting.of_ofSchemeText_eq_ok h with rfl | rfl
    · exact Weighting.fault?_v1
    · exact Weighting.fault?_v2
  · obtain ⟨-, _, _, _, -, -, -, hcustom⟩ := weightingOfShares_eq_ok_iff.mp h
    exact Weighting.fault?_of_custom hcustom
  · cases h
    exact Weighting.fault?_v2

/-! ## Profiles -/

/-- The profile of settings whose mode and weighting are known. -/
def profileWith (s : Settings) (mode : DuplicationMode) (weighting : Weighting) : Profile :=
  ⟨mode, s.curves, s.escalation.getD default, s.severities.getD default, s.criticism.getD default,
    weighting⟩

theorem resolve_eq_ok_iff {s : Settings} {p : Profile} :
    s.resolve = .ok p ↔ ∃ mode w, s.duplicationMode = .ok mode ∧ s.weighting = .ok w ∧
      (s.profileWith mode w).Accepted ∧ s.profileWith mode w = p := by
  unfold resolve
  constructor
  · intro h
    obtain ⟨mode, hmode, h⟩ := bind_eq_ok_iff.mp h
    obtain ⟨w, hw, h⟩ := bind_eq_ok_iff.mp h
    obtain ⟨haccepted, h⟩ := andThen_eq_ok_iff.mp h
    refine ⟨mode, w, hmode, ?_, (Profile.validate_eq_ok_iff _).mp haccepted, Except.ok.inj h⟩
    cases hweighting : s.weighting with
    | error fault =>
      rw [hweighting] at hw
      cases hw
    | ok w' =>
      rw [hweighting] at hw
      cases hw
      rfl
  · rintro ⟨mode, w, hmode, hw, haccepted, rfl⟩
    refine bind_eq_ok_iff.mpr ⟨mode, hmode, bind_eq_ok_iff.mpr ⟨w, by rw [hw]; rfl, ?_⟩⟩
    exact andThen_eq_ok_iff.mpr ⟨(Profile.validate_eq_ok_iff _).mpr haccepted, rfl⟩

theorem accepted_profileWith_iff (s : Settings) (mode : DuplicationMode) {w : Weighting}
    (hw : w.fault? = none) :
    (s.profileWith mode w).Accepted ↔
      (∀ w ∈ s.severities, w.fault? = none) ∧ (∀ w ∈ s.criticism, w.fault? = none) ∧
        (∀ c ∈ s.complexity, c.fault? = none) ∧ (∀ c ∈ s.size, c.fault? = none) ∧
        (∀ c ∈ s.duplicationLegacy, c.fault? = none) ∧
        (∀ c ∈ s.duplicationStrict, c.fault? = none) ∧ ∀ e ∈ s.escalation, e.fault? = none := by
  -- What is left open has its coefficients from the standard profile.
  have hstandard := Profile.accepted_standard
  rw [forall_fault?_iff_getD hstandard.severities, forall_fault?_iff_getD hstandard.criticism,
    forall_fault?_iff_getD hstandard.complexity, forall_fault?_iff_getD hstandard.size,
    forall_fault?_iff_getD (hstandard.duplication .legacy),
    forall_fault?_iff_getD (hstandard.duplication .strict),
    forall_fault?_iff_getD hstandard.escalation]
  constructor
  · intro h
    exact ⟨h.severities, h.criticism, h.complexity, h.size, h.duplication .legacy,
      h.duplication .strict, h.escalation⟩
  · rintro ⟨h₁, h₂, h₃, h₄, h₅, h₆, h₇⟩
    exact ⟨h₃, h₄, fun mode => by cases mode; exacts [h₅, h₆], h₇, h₁, h₂, hw⟩

/-- Settings make a profile exactly if each of them is good by itself and not both a scheme and
shares of one's own are set. -/
theorem exists_resolve_iff (s : Settings) :
    (∃ p, s.resolve = .ok p) ↔ s.Good ∧ ¬ (s.scheme.isSome ∧ s.shares.isSome) := by
  constructor
  · rintro ⟨p, h⟩
    obtain ⟨mode, w, hmode, hw, haccepted, -⟩ := resolve_eq_ok_iff.mp h
    obtain ⟨hboth, hscheme, hshares⟩ := s.exists_weighting_iff.mp ⟨w, hw⟩
    obtain ⟨h₁, h₂, h₃, h₄, h₅, h₆, h₇⟩ :=
      (s.accepted_profileWith_iff mode (fault?_of_weighting hw)).mp haccepted
    exact ⟨⟨s.exists_duplicationMode_iff.mp ⟨mode, hmode⟩, h₁, hscheme, hshares, h₂, h₃, h₄, h₅, h₆,
      h₇⟩, hboth⟩
  · rintro ⟨h, hboth⟩
    obtain ⟨mode, hmode⟩ := s.exists_duplicationMode_iff.mpr h.mode
    obtain ⟨w, hw⟩ := s.exists_weighting_iff.mpr ⟨hboth, h.scheme, h.shares⟩
    have haccepted := (s.accepted_profileWith_iff mode (fault?_of_weighting hw)).mpr
      ⟨h.severities, h.criticism, h.complexity, h.size, h.duplicationLegacy, h.duplicationStrict,
        h.escalation⟩
    exact ⟨_, resolve_eq_ok_iff.mpr ⟨mode, w, hmode, hw, haccepted, rfl⟩⟩

theorem Good.resolve_of_both {s : Settings} (h : s.Good) (hscheme : s.scheme.isSome)
    (hshares : s.shares.isSome) : s.resolve = .error (.weighting .schemeAndShares) := by
  obtain ⟨mode, hmode⟩ := s.exists_duplicationMode_iff.mpr h.mode
  rw [resolve, hmode, weighting_of_both hscheme hshares]
  rfl

/-- Another mode makes the same profile in that mode. -/
theorem resolve_of_mode {s : Settings} {p : Profile} (h : s.resolve = .ok p)
    (mode : DuplicationMode) :
    ({ s with mode := some mode.name } : Settings).resolve = .ok (p.withMode mode) := by
  obtain ⟨_, w, -, hw, haccepted, rfl⟩ := resolve_eq_ok_iff.mp h
  refine resolve_eq_ok_iff.mpr ⟨mode, w, mode.ofText_name, hw, ?_, rfl⟩
  exact haccepted.withMode mode

end Settings

end CodeQuality
