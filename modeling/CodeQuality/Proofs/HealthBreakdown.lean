import CodeQuality.Proofs.Double.Integral
import CodeQuality.Proofs.FileOrder

/-!
What a health score is made of.

The health score of a file is at most each of its three sub-scores. Where the weights of issues are
whole it is, without any error of rounding, what the three sub-scores and the two penalties of the
report give: all of them are whole, differences of whole numbers are exact up to `2 ^ 53`, and what
lies beyond is below zero and leaves nothing.
-/

namespace CodeQuality

open Double

/-! ## Penalties -/

/-- Each weight is a whole number. -/
def Severity.Weights.AreWhole (w : Severity.Weights) : Prop :=
  ∀ severity, ∃ n : ℤ, Denotes (w.weight severity) (n : ℝ)

theorem Severity.Weights.AreWhole.exists_weight {w : Severity.Weights} (hw : w.AreWhole)
    (h : w.fault? = none) (severity : Severity) :
    ∃ v, Denotes (w.weight severity) v ∧ IsIntegral v := by
  obtain ⟨n, hn⟩ := hw severity
  obtain ⟨a, ha, hnonneg⟩ := Severity.Weights.exists_weight h severity
  have heq : (n : ℝ) = a := EReal.coe_injective (hn.unique ha)
  have hn₀ : 0 ≤ n := by
    rw [← heq] at hnonneg
    exact_mod_cast hnonneg
  obtain ⟨m, rfl⟩ := Int.eq_ofNat_of_zero_le hn₀
  exact ⟨_, hn, .inr ⟨m, by rw [Int.cast_natCast]⟩⟩

/-- Whole weights make whole points, also where sums are rounded. -/
theorem Severity.Weights.AreWhole.exists_penalty {w : Severity.Weights} (hw : w.AreWhole)
    (h : w.fault? = none) (issues : List Severity) :
    ∃ v, Denotes (w.penalty issues) v ∧ IsIntegral v := by
  rw [Severity.Weights.penalty_eq]
  refine exists_sum_isIntegral _ ?_ _ ⟨0, denotes_neg_zero, isIntegral_zero⟩
  intro x hx
  obtain ⟨severity, -, rfl⟩ := List.mem_map.mp hx
  exact hw.exists_weight h severity

theorem Severity.Weights.areWhole_standard : Severity.Weights.standard.AreWhole := by
  have hwhole (n : ℕ) (hn : n ≤ 2 ^ 53) : ∃ k : ℤ, Denotes (wholeFloat n) (k : ℝ) :=
    ⟨n, by simpa using denotes_wholeFloat hn⟩
  intro severity
  cases severity with
  | critical => exact hwhole 20 (by norm_num)
  | high => exact hwhole 12 (by norm_num)
  | medium => exact hwhole 6 (by norm_num)
  | low => exact hwhole 2 (by norm_num)

theorem Escalation.exists_penalty {power : Power} (h : power.NonNegative) {e : Escalation}
    (he : e.fault? = none) {complexity : UInt32}
    (hnumber : (e.penalty power complexity).isNaN = false) :
    ∃ v, Denotes (e.penalty power complexity) v ∧ IsIntegral v := by
  obtain ⟨r, hr⟩ := exists_reads he
  have hpenalty := hr.penalty_spec h complexity
  split_ifs at hpenalty
  · rw [hpenalty] at hnumber
    exact Bool.noConfusion hnumber
  · obtain ⟨v, hv, hdenotes⟩ := hpenalty
    exact ⟨_, hdenotes, isIntegral_toWhole hv⟩

/-! ## Health -/

theorem IsWholeScore.lack_nonneg {x : Float} (h : IsWholeScore x) : 0.0 ≤ 100.0 - x := by
  obtain ⟨v, hv, hv₀⟩ := h.exists_lack
  exact nonneg_of_denotes hv hv₀

/-- Taking from 100 what a whole score lacks of it leaves the score. -/
theorem IsWholeScore.hundred_sub_lack_le {x : Float} (h : IsWholeScore x) :
    100.0 - (100.0 - x) ≤ x := by
  obtain ⟨n, hn, hx⟩ := isWholeScore_iff.mp h
  have hscore := denotes_lack (denotes_lack hx hn) (Nat.sub_le 100 n)
  rw [Nat.sub_sub_self hn] at hscore
  exact (hscore.le_iff hx).mpr le_rfl

/-- Health is no more than any of the three scores that it is composed of. -/
theorem composeHealth_le {c d s e i : Float} (hc : IsWholeScore c) (hd : IsWholeScore d)
    (hs : IsWholeScore s) (he : 0.0 ≤ e) (hi : 0.0 ≤ i) :
    composeHealth c d s e i ≤ c ∧ composeHealth c d s e i ≤ s ∧ composeHealth c d s e i ≤ d := by
  have hfull : (100.0 : Float) ≤ 100.0 := (denotes_hundred.le_iff denotes_hundred).mpr le_rfl
  have lc := hc.lack_nonneg
  have ls := hs.lack_nonneg
  have ld := hd.lack_nonneg
  -- Each difference is at most the one before, and at most what the part taken away leaves of 100.
  have b₁ := sub_le_hundred hfull lc
  have h₂ := sub_le_left b₁ he
  have b₂ := Double.le_trans h₂ b₁
  have h₃ := sub_le_left b₂ ls
  have b₃ := Double.le_trans h₃ b₂
  have h₄ := sub_le_left b₃ ld
  have b₄ := Double.le_trans h₄ b₃
  have h₅ := sub_le_left b₄ hi
  have r₂ := Double.le_trans h₂ hc.hundred_sub_lack_le
  have r₃ := Double.le_trans h₃ r₂
  have r₄ := Double.le_trans h₄ r₃
  have s₃ := Double.le_trans (sub_mono b₂ hfull (le_self (isNaN_eq_false_of_le ls).2) ls)
    hs.hundred_sub_lack_le
  have s₄ := Double.le_trans h₄ s₃
  have d₄ := Double.le_trans (sub_mono b₃ hfull (le_self (isNaN_eq_false_of_le ld).2) ld)
    hd.hundred_sub_lack_le
  exact ⟨clampScore_le (Double.le_trans h₅ r₄) hc.nonneg,
    clampScore_le (Double.le_trans h₅ s₄) hs.nonneg,
    clampScore_le (Double.le_trans h₅ d₄) hd.nonneg⟩

/-- In exact arithmetic the order in which the parts are taken away does not matter. -/
theorem hundred_sub_lacks {c d s : ℕ} (hc : c ≤ 100) (hd : d ≤ 100) (hs : s ≤ 100) {e i : EReal}
    (he : IsIntegral e) (hi : IsIntegral i) :
    100 - (((100 - c : ℕ) : ℝ) : EReal) - e - (((100 - s : ℕ) : ℝ) : EReal) -
        (((100 - d : ℕ) : ℝ) : EReal) - i = ((c + s + d - 200 : ℝ) : EReal) - e - i := by
  rw [hundred_eq, Nat.cast_sub hc, Nat.cast_sub hd, Nat.cast_sub hs]
  rcases he with rfl | ⟨m, rfl⟩
  · simp only [EReal.sub_top, EReal.bot_sub]
  rcases hi with rfl | ⟨n, rfl⟩
  · simp only [EReal.sub_top]
  · simp only [← EReal.coe_sub]
    congr 1
    push_cast
    ring

theorem denotes_composeHealth {complexity duplication size escalation issues : Float} {c d s : ℕ}
    {e i : EReal} (hc : Denotes complexity (c : ℝ)) (hc₁ : c ≤ 100)
    (hd : Denotes duplication (d : ℝ)) (hd₁ : d ≤ 100) (hs : Denotes size (s : ℝ))
    (hs₁ : s ≤ 100) (he : Denotes escalation e) (he₀ : IsIntegral e) (hi : Denotes issues i)
    (hi₀ : IsIntegral i) :
    Denotes (composeHealth complexity duplication size escalation issues)
      (max 0 (((c + s + d - 200 : ℝ) : EReal) - e - i)) := by
  have h₁ := tracks_hundred.sub (denotes_lack hc hc₁) (isIntegral_natCast _)
  have h₂ := h₁.sub he he₀
  have h₃ := h₂.sub (denotes_lack hs hs₁) (isIntegral_natCast _)
  have h₄ := h₃.sub (denotes_lack hd hd₁) (isIntegral_natCast _)
  have h₅ := (h₄.sub hi hi₀).clampScore
  rw [hundred_sub_lacks hc₁ hd₁ hs₁ he₀ hi₀] at h₅
  exact h₅

/-- The reported health score is what the reported sub-scores and penalties give in whole numbers,
where no result is below zero; an infinite penalty leaves nothing. -/
def FileScore.IsExplained (a : FileScore) : Prop :=
  ∃ c s d : ℕ, Denotes a.complexity (c : ℝ) ∧ Denotes a.size (s : ℝ) ∧
    Denotes a.duplication (d : ℝ) ∧
    ((∃ e i : ℕ, Denotes a.escalationPenalty (e : ℝ) ∧ Denotes a.issuePenalty (i : ℝ) ∧
        Denotes a.health ((max 0 (c + s + d - 200 - e - i) : ℤ) : ℝ)) ∨
      (a.escalationPenalty.isInf = true ∨ a.issuePenalty.isInf = true) ∧ Denotes a.health 0)

theorem FileScore.isExplained_of_denotes {a : FileScore} {c s d : ℕ} {e i : EReal}
    (hc : Denotes a.complexity (c : ℝ)) (hs : Denotes a.size (s : ℝ))
    (hd : Denotes a.duplication (d : ℝ)) (he : Denotes a.escalationPenalty e) (he₀ : IsIntegral e)
    (hi : Denotes a.issuePenalty i) (hi₀ : IsIntegral i)
    (hhealth : Denotes a.health (max 0 (((c + s + d - 200 : ℝ) : EReal) - e - i))) :
    a.IsExplained := by
  refine ⟨c, s, d, hc, hs, hd, ?_⟩
  have hbot : max 0 (⊥ : EReal) = 0 := max_eq_left bot_le
  rcases he₀ with rfl | ⟨m, rfl⟩
  · rw [EReal.sub_top, EReal.bot_sub, hbot] at hhealth
    exact .inr ⟨.inl (he.isInf_iff.mpr (.inl rfl)), hhealth⟩
  rcases hi₀ with rfl | ⟨n, rfl⟩
  · rw [EReal.sub_top, hbot] at hhealth
    exact .inr ⟨.inr (hi.isInf_iff.mpr (.inl rfl)), hhealth⟩
  · refine .inl ⟨m, n, he, hi, ?_⟩
    rw [← EReal.coe_sub, ← EReal.coe_sub, ← EReal.coe_zero,
      ← EReal.coe_strictMono.monotone.map_max] at hhealth
    push_cast
    exact hhealth

/-! ## Files -/

namespace Profile

variable {power : Power} {p : Profile} {f : SourceFile}

/-- As long as no sub-score and not the escalation is lost, the health score of a file is at most
each of its sub-scores, and with whole weights of issues it is what the reported numbers give in
exact arithmetic. -/
theorem scoreFile_breakdown (h : power.NonNegative) (hp : p.validate = .ok ())
    (hf : f.validate = .ok ()) :
    ∃ a, p.scoreFile power f = .ok a ∧
      (a.complexity.isNaN = false → a.size.isNaN = false → a.duplication.isNaN = false →
        a.escalationPenalty.isNaN = false →
        (a.health ≤ a.complexity ∧ a.health ≤ a.size ∧ a.health ≤ a.duplication) ∧
          (p.severities.AreWhole → a.IsExplained)) := by
  rw [validate_eq_ok_iff] at hp
  rw [SourceFile.validate_eq_ok_iff] at hf
  refine ⟨p.measure power f, scoreFile_eq_ok_iff.mpr ⟨hp, hf, rfl⟩, ?_⟩
  intro hcomplexity hsize hduplication hescalation
  have hmeasured := p.isMeasured_measure power f
  have hc := hmeasured.complexity.resolve_left (Bool.eq_false_iff.mp hcomplexity)
  have hs := hmeasured.size.resolve_left (Bool.eq_false_iff.mp hsize)
  have hd := hmeasured.duplication.resolve_left (Bool.eq_false_iff.mp hduplication)
  obtain ⟨e, he, he₀⟩ := Escalation.exists_penalty h hp.escalation hescalation
  constructor
  · obtain ⟨i, hi, hi₀⟩ := Severity.Weights.exists_penalty hp.severities f.issues
    exact composeHealth_le hc hd hs (nonneg_of_denotes he he₀.nonneg) (nonneg_of_denotes hi hi₀)
  · intro hwhole
    obtain ⟨i, hi, hi₀⟩ := hwhole.exists_penalty hp.severities f.issues
    obtain ⟨c, hc₁, hc⟩ := isWholeScore_iff.mp hc
    obtain ⟨s, hs₁, hs⟩ := isWholeScore_iff.mp hs
    obtain ⟨d, hd₁, hd⟩ := isWholeScore_iff.mp hd
    exact FileScore.isExplained_of_denotes hc hs hd he he₀ hi hi₀
      (denotes_composeHealth hc hc₁ hd hd₁ hs hs₁ he he₀ hi hi₀)

/-- A file with something to pay for in each metric, and with two issues. -/
def troubledFile : SourceFile := ⟨"a", ⟨19, 450, 0.05, 4⟩, [.high, .low], default⟩

theorem scoreFile_breakdown_troubled :
    Power.square.NonNegative ∧ standard.validate = .ok () ∧ troubledFile.validate = .ok () ∧
      ∃ a, standard.scoreFile Power.square troubledFile = .ok a ∧
        (a.health ≤ a.complexity ∧ a.health ≤ a.size ∧ a.health ≤ a.duplication) ∧
        a.IsExplained ∧ a.health = 33.0 := by
  have hpower := Power.monotone_square.nonNegative
  obtain ⟨a, ha, hbreakdown⟩ :=
    scoreFile_breakdown (p := standard) (f := troubledFile) hpower rfl rfl
  obtain ⟨-, -, rfl⟩ := scoreFile_eq_ok_iff.mp ha
  obtain ⟨hle, hexplained⟩ := hbreakdown (by decide) (by decide)
    (by decide) (by decide)
  exact ⟨hpower, rfl, rfl, _, ha, hle, hexplained Severity.Weights.areWhole_standard,
    by decide⟩

end Profile

end CodeQuality
