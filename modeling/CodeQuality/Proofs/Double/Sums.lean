import CodeQuality.Proofs.Double.Absorption
import CodeQuality.Proofs.Double.Order

/-!
Sums of numbers from zero on that are rounded after each addition.

An addition is exact below the range where doubles have all their digits, so every addition costs
at most one factor of rounding. A sum is the same in every order when no addition rounds. In
general the order shows in the last digits, and two sums that denote the same number are the same
double, the sign of zero included.
-/

namespace CodeQuality.Double

open Float.Model (UnpackedFloat)

variable {x y : Float} {a b : ℝ}

/-! ## One addition -/

theorem near_roundMagnitude_add (hx : Denotes x a) (hy : Denotes y b) (ha : 0 ≤ a) (hb : 0 ≤ b) :
    Near 1 (roundMagnitude (a + b)) (a + b) := by
  rcases le_or_gt (2 ^ (-1022 : ℤ)) (a + b) with hnormal | hsmall
  · exact near_roundMagnitude hnormal
  · -- Below that the sum has at most 52 digits in units of the least distance.
    obtain ⟨k, rfl⟩ := hx.exists_units
    obtain ⟨l, rfl⟩ := hy.exists_units
    have hunit : 0 < leastUnit := two_zpow_pos _
    have hk : 0 ≤ k := by exact_mod_cast nonneg_of_mul_nonneg_left ha hunit
    have hl : 0 ≤ l := by exact_mod_cast nonneg_of_mul_nonneg_left hb hunit
    obtain ⟨m, hm⟩ := Int.eq_ofNat_of_zero_le (add_nonneg hk hl)
    have hsum : (k : ℝ) * leastUnit + l * leastUnit = (m : ℝ) * 2 ^ (-1074 : ℤ) := by
      rw [← add_mul, ← Int.cast_add, hm, Int.cast_natCast]
      rfl
    have hdigits : m < 2 ^ 53 := by
      by_contra hge
      have hle := zpow_le_mul_zpow (not_lt.mp hge) (-1074)
      rw [hsum] at hsmall
      exact absurd (hle.trans_lt hsmall) (not_lt.mpr (two_zpow_mono (by norm_num)))
    rw [hsum, roundMagnitude_eq_self hdigits le_rfl]
    have hnonneg : 0 ≤ (m : ℝ) * 2 ^ (-1074 : ℤ) := hsum ▸ add_nonneg ha hb
    exact (Near.refl _).mono (Nat.zero_le 1) hnonneg hnonneg

/-! ## Any number of additions -/

/-- The real number that a finite double denotes. -/
noncomputable def amount (x : Float) : ℝ := (value x.toModel.unpack).toReal

theorem Denotes.amount_eq (h : Denotes x a) : amount x = a := by
  unfold amount
  rw [h.value_eq, EReal.toReal_coe]

/-- A finite number from zero on. -/
def IsAmount (x : Float) : Prop := ∃ a : ℝ, Denotes x a ∧ 0 ≤ a

theorem IsAmount.denotes (h : IsAmount x) : Denotes x (amount x) := by
  obtain ⟨a, ha, -⟩ := h
  rwa [ha.amount_eq]

theorem IsAmount.nonneg (h : IsAmount x) : 0 ≤ amount x := by
  obtain ⟨a, ha, ha₀⟩ := h
  rwa [ha.amount_eq]

/-- The sum without rounding. -/
noncomputable def exactSum (xs : List Float) : ℝ := (xs.map amount).sum

theorem exactSum_cons (x : Float) (xs : List Float) :
    exactSum (x :: xs) = amount x + exactSum xs := by
  unfold exactSum
  rw [List.map_cons, List.sum_cons]

theorem exactSum_perm {xs ys : List Float} (h : xs.Perm ys) : exactSum xs = exactSum ys :=
  (h.map amount).sum_eq

theorem exactSum_nonneg {xs : List Float} (hxs : ∀ x ∈ xs, IsAmount x) : 0 ≤ exactSum xs :=
  List.sum_nonneg (List.forall_mem_map.mpr fun x hx => (hxs x hx).nonneg)

theorem sum_of_top {xs : List Float} (hxs : ∀ x ∈ xs, IsAmount x) {start : Float}
    (hstart : Denotes start ⊤) : Denotes (xs.foldl (· + ·) start) ⊤ := by
  have hnonneg : (0 : EReal) ≤ ⊤ := le_top
  have hstart₀ := nonneg_of_denotes hstart hnonneg
  have hle : [].foldl (· + ·) start ≤ xs.foldl (· + ·) start :=
    sum_le_sum_of_sublist (List.nil_sublist xs)
      (fun x hx => nonneg_of_denotes (hxs x hx).denotes (EReal.coe_nonneg.mpr (hxs x hx).nonneg))
      hstart₀ (le_self hstart.isNaN_eq_false)
  obtain ⟨u, v, hu, hv, huv⟩ := exists_of_le hle
  obtain rfl := hu.unique hstart
  rwa [top_le_iff.mp huv] at hv

/-- A computed sum against the exact one: as near as one rounding for each addition allows, or
infinite where the exact sum comes as near to the limit. -/
inductive NearSum (count : ℕ) (exact : ℝ) : EReal → Prop
  | finite (r : ℝ) (nonneg : 0 ≤ r) (near : Near count r exact) : NearSum count exact r
  | infinite (limit_le : limit ≤ exact * roundoffFactor ^ count) : NearSum count exact ⊤

/-- Far below the limit no sum overflows. -/
theorem NearSum.exists_near {count : ℕ} {exact : ℝ} {v : EReal} (h : NearSum count exact v)
    (hsmall : exact * roundoffFactor ^ count < limit) :
    ∃ r : ℝ, v = r ∧ 0 ≤ r ∧ Near count r exact := by
  cases h with
  | finite r hr hnear => exact ⟨r, rfl, hr, hnear⟩
  | infinite hlimit => exact absurd hlimit (not_le.mpr hsmall)

/-- One term more before the others: its addition is one rounding more. -/
theorem NearSum.cons {count : ℕ} {p s t : ℝ} {v : EReal} (h : NearSum count (p + t) v)
    (hp : Near 1 p s) (ht : 0 ≤ t) : NearSum (1 + count) (s + t) v := by
  have hshifted := hp.add_right ht
  cases h with
  | finite r hr₀ hr => exact .finite r hr₀ (Nat.add_comm 1 count ▸ hr.trans hshifted)
  | infinite hlimit =>
    refine .infinite (hlimit.trans ?_)
    calc (p + t) * roundoffFactor ^ count
        ≤ (s + t) * roundoffFactor ^ 1 * roundoffFactor ^ count :=
          mul_le_mul_of_nonneg_right hshifted.le (pow_pos roundoffFactor_pos count).le
      _ = (s + t) * roundoffFactor ^ (1 + count) := by rw [mul_assoc, ← pow_add]

/-- A partial sum that has overflowed leaves the whole sum infinite. -/
theorem nearSum_top {p s t : ℝ} (hp : Near 1 p s) (hlimit : limit ≤ p) (hs : 0 ≤ s) (ht : 0 ≤ t)
    (count : ℕ) : NearSum (1 + count) (s + t) ⊤ := by
  refine .infinite ?_
  calc limit ≤ p := hlimit
    _ ≤ s * roundoffFactor ^ 1 := hp.le
    _ ≤ (s + t) * roundoffFactor ^ (1 + count) := by
      apply mul_le_mul (le_add_of_nonneg_right ht)
      · exact pow_le_pow_right₀ one_le_roundoffFactor (Nat.le_add_right 1 _)
      · exact (pow_pos roundoffFactor_pos 1).le
      · exact add_nonneg hs ht

theorem nearSum_sum {xs : List Float} (hxs : ∀ x ∈ xs, IsAmount x) :
    ∀ {start : Float} {s : ℝ}, Denotes start s → 0 ≤ s →
      ∃ v, Denotes (xs.foldl (· + ·) start) v ∧ NearSum xs.length (s + exactSum xs) v := by
  -- On the list, for every start: the start of the rest is the first partial sum.
  induction xs with
  | nil =>
    intro start s hstart hs
    refine ⟨s, hstart, .finite s hs ?_⟩
    rw [show exactSum [] = 0 from rfl, add_zero]
    exact Near.refl s
  | cons x rest ih =>
    intro start s hstart hs
    have hx := hxs x (List.mem_cons_self ..)
    have hrest : ∀ y ∈ rest, IsAmount y := fun y hy => hxs y (List.mem_cons_of_mem x hy)
    have hrest₀ := exactSum_nonneg hrest
    have hnear := near_roundMagnitude_add hstart hx.denotes hs hx.nonneg
    have hsum := hstart.add hx.denotes (not_cancels_of_coe_left _ _)
    have hpartial : 0 ≤ s + amount x := add_nonneg hs hx.nonneg
    have htotal : s + exactSum (x :: rest) = s + amount x + exactSum rest := by
      rw [exactSum_cons, add_assoc]
    rw [← EReal.coe_add] at hsum
    rw [htotal, List.foldl_cons, List.length_cons, Nat.add_comm]
    rcases lt_or_ge (roundMagnitude (s + amount x)) limit with hfinite | hinfinite
    · rw [nearest_of_roundMagnitude_lt hpartial hfinite] at hsum
      obtain ⟨v, hv, hsum'⟩ := ih hrest hsum (roundMagnitude_nonneg _)
      exact ⟨v, hv, hsum'.cons hnear hrest₀⟩
    · rw [nearest_coe, roundReal_of_nonneg hpartial, overflow_of_limit_le hinfinite] at hsum
      exact ⟨⊤, sum_of_top hrest hsum, nearSum_top hnear hinfinite hpartial hrest₀ _⟩

/-! ## Sums without rounding -/

/-- The terms are whole in one unit, a power of two, and have at most 53 digits together. -/
def AddsExactly (xs : List Float) : Prop :=
  ∃ e : ℤ, -1074 ≤ e ∧ (∀ x ∈ xs, ∃ m : ℕ, Denotes x ((m * 2 ^ e : ℝ) : EReal)) ∧
    exactSum xs ≤ 2 ^ 53 * 2 ^ e

theorem AddsExactly.perm {xs ys : List Float} (h : AddsExactly xs) (hperm : xs.Perm ys) :
    AddsExactly ys := by
  obtain ⟨e, he, hxs, hsum⟩ := h
  exact ⟨e, he, fun y hy => hxs y (hperm.mem_iff.mpr hy), exactSum_perm hperm ▸ hsum⟩

/-- Whole numbers of at most 53 digits in any unit are doubles, or beyond all of them. -/
theorem nearest_units {n : ℕ} {e : ℤ} (hn : n ≤ 2 ^ 53) (he : -1074 ≤ e) :
    nearest ((n * 2 ^ e : ℝ) : EReal) = overflow (n * 2 ^ e) := by
  have hself : roundMagnitude (n * 2 ^ e) = n * 2 ^ e := by
    rcases hn.lt_or_eq with hlt | rfl
    · exact roundMagnitude_eq_self hlt he
    · have hshift : ((2 ^ 53 : ℕ) : ℝ) * 2 ^ e = ((1 : ℕ) : ℝ) * 2 ^ (e + 53) := by
        rw [natCast_two_pow_mul_zpow, Nat.cast_one, one_mul]
        rfl
      rw [hshift]
      exact roundMagnitude_eq_self (by norm_num) (by omega)
  have hnonneg : 0 ≤ (n : ℝ) * 2 ^ e := mul_nonneg (Nat.cast_nonneg n) (two_zpow_pos e).le
  rw [nearest_coe, roundReal_of_nonneg hnonneg, hself]

theorem nearest_add_units {k m : ℕ} {e : ℤ} (h : k + m ≤ 2 ^ 53) (he : -1074 ≤ e) :
    nearest (nearest ((k * 2 ^ e : ℝ) : EReal) + ((m * 2 ^ e : ℝ) : EReal)) =
      nearest (((k + m : ℕ) * 2 ^ e : ℝ) : EReal) := by
  have hunit := two_zpow_pos e
  have hm : 0 ≤ (m : ℝ) * 2 ^ e := mul_nonneg (Nat.cast_nonneg m) hunit.le
  have hsum : ((k + m : ℕ) : ℝ) * 2 ^ e = k * 2 ^ e + m * 2 ^ e := by
    rw [Nat.cast_add, add_mul]
  rw [nearest_units (by omega) he]
  rcases lt_or_ge ((k : ℝ) * 2 ^ e) limit with hfinite | hinfinite
  · have hk : 0 ≤ (k : ℝ) * 2 ^ e := mul_nonneg (Nat.cast_nonneg k) hunit.le
    rw [overflow_of_abs_lt (by rwa [abs_of_nonneg hk]), ← EReal.coe_add, hsum]
  · rw [overflow_of_limit_le hinfinite, EReal.top_add_of_ne_bot (EReal.coe_ne_bot _),
      nearest_eq_top_of_limit_le (by linarith)]
    rfl

theorem denotes_sum_units {e : ℤ} (he : -1074 ≤ e) {xs : List Float}
    (hxs : ∀ x ∈ xs, ∃ m : ℕ, Denotes x ((m * 2 ^ e : ℝ) : EReal)) :
    ∀ {start : Float} {k : ℕ}, Denotes start (nearest ((k * 2 ^ e : ℝ) : EReal)) →
      k * 2 ^ e + exactSum xs ≤ 2 ^ 53 * 2 ^ e →
      Denotes (xs.foldl (· + ·) start) (nearest ((k * 2 ^ e + exactSum xs : ℝ) : EReal)) := by
  have hunit := two_zpow_pos e
  induction xs with
  | nil =>
    intro start k hstart _
    rwa [show exactSum [] = 0 from rfl, add_zero]
  | cons x rest ih =>
    intro start k hstart hbound
    obtain ⟨m, hm⟩ := hxs x (List.mem_cons_self ..)
    have hrest : ∀ y ∈ rest, ∃ m : ℕ, Denotes y ((m * 2 ^ e : ℝ) : EReal) :=
      fun y hy => hxs y (List.mem_cons_of_mem x hy)
    have hrest₀ : 0 ≤ exactSum rest := exactSum_nonneg fun y hy => by
      obtain ⟨n, hn⟩ := hrest y hy
      exact ⟨_, hn, mul_nonneg (Nat.cast_nonneg n) hunit.le⟩
    have htotal : (k : ℝ) * 2 ^ e + exactSum (x :: rest) =
        ((k + m : ℕ) : ℝ) * 2 ^ e + exactSum rest := by
      rw [exactSum_cons, hm.amount_eq]
      push_cast
      ring
    rw [htotal] at hbound ⊢
    have hdigits : k + m ≤ 2 ^ 53 := by
      have hle : ((k + m : ℕ) : ℝ) * 2 ^ e ≤ 2 ^ 53 * 2 ^ e := by linarith
      exact_mod_cast le_of_mul_le_mul_right hle hunit
    apply ih hrest _ hbound
    rw [← nearest_add_units hdigits he]
    have hk : 0 ≤ (k : ℝ) * 2 ^ e := mul_nonneg (Nat.cast_nonneg k) hunit.le
    have hm₀ : 0 ≤ (m : ℝ) * 2 ^ e := mul_nonneg (Nat.cast_nonneg m) hunit.le
    exact hstart.add hm (not_cancels_of_nonneg (nearest_nonneg (EReal.coe_nonneg.mpr hk))
      (EReal.coe_nonneg.mpr hm₀))

/-! ## Sums in another order -/

theorem eq_of_denotes_top (hx : Denotes x ⊤) (hy : Denotes y ⊤) : x = y := by
  have hunpack {z : Float} (hz : Denotes z ⊤) : z.toModel.unpack = .infinity .positive := by
    obtain ⟨s, hs⟩ := hz.isNumber.eq_infinity (.inl hz.value_eq)
    have hvalue := hz.value_eq
    rw [hs] at hvalue ⊢
    cases s with
    | negative => simp [value] at hvalue
    | positive => rfl
  exact eq_of_unpack_eq ((hunpack hx).trans (hunpack hy).symm)

theorem eq_zero_of_denotes (h : Denotes x 0) : x = 0.0 ∨ x = -0.0 := by
  obtain ⟨s, hs⟩ := h.isNumber.eq_zero h.value_eq
  cases s with
  | positive => exact .inl (eq_of_unpack_eq hs)
  | negative => exact .inr (eq_of_unpack_eq hs)

/-- The negative zero adds nothing, not even to a zero. -/
theorem neg_zero_add (hx : 0.0 ≤ x) : -0.0 + x = x := by
  obtain ⟨v, hv, hv₀⟩ := exists_of_nonneg hx
  have hsum := denotes_neg_zero.add hv (not_cancels_of_nonneg le_rfl hv₀)
  rw [zero_add, hv.nearest_eq] at hsum
  induction v with
  | bot => exact absurd hv₀ (by simp)
  | top => exact eq_of_denotes_top hsum hv
  | coe r =>
    by_cases hr : r = 0
    · rw [hr, EReal.coe_zero] at hv
      rcases eq_zero_of_denotes hv with rfl | rfl <;> decide
    · exact eq_of_denotes hsum hv hr

/-- A sum of zeros is the negative zero if and only if all of them are. -/
theorem sum_zeros {xs : List Float} (hxs : ∀ x ∈ xs, x = 0.0 ∨ x = -0.0) :
    ∀ {start : Float}, start = 0.0 ∨ start = -0.0 →
      (start = 0.0 ∨ 0.0 ∈ xs → xs.foldl (· + ·) start = 0.0) ∧
      (¬ (start = 0.0 ∨ 0.0 ∈ xs) → xs.foldl (· + ·) start = -0.0) := by
  induction xs with
  | nil =>
    intro start hstart
    simp only [List.not_mem_nil, or_false, List.foldl_nil]
    exact ⟨id, hstart.resolve_left⟩
  | cons x rest ih =>
    intro start hstart
    have hrest : ∀ y ∈ rest, y = 0.0 ∨ y = -0.0 := fun y hy => hxs y (List.mem_cons_of_mem x hy)
    -- Adding two zeros gives the negative zero for two of them only.
    have hstep : (start + x = 0.0 ∨ start + x = -0.0) ∧
        (start + x = 0.0 ↔ start = 0.0 ∨ x = 0.0) := by
      have hx := hxs x (List.mem_cons_self ..)
      rcases hstart with rfl | rfl <;> rcases hx with rfl | rfl <;> decide
    obtain ⟨hzero, hnegative⟩ := ih hrest hstep.1
    rw [List.foldl_cons, List.mem_cons, ← or_assoc, @eq_comm Float 0.0 x, ← hstep.2]
    exact ⟨hzero, hnegative⟩

/-- No term is above the sum. -/
theorem amount_le_sum {xs : List Float} (hxs : ∀ x ∈ xs, IsAmount x) {v : EReal}
    (hsum : Denotes (xs.foldl (· + ·) (-0.0)) v) (hx : x ∈ xs) : (amount x : EReal) ≤ v := by
  have hx' := hxs x hx
  have hstart : (0.0 : Float) ≤ -0.0 := nonneg_of_denotes denotes_neg_zero le_rfl
  have hle : [x].foldl (· + ·) (-0.0) ≤ xs.foldl (· + ·) (-0.0) :=
    sum_le_sum_of_sublist (List.singleton_sublist.mpr hx)
      (fun y hy => nonneg_of_denotes (hxs y hy).denotes (EReal.coe_nonneg.mpr (hxs y hy).nonneg))
      hstart (le_self denotes_neg_zero.isNaN_eq_false)
  have hsingle := denotes_neg_zero.add hx'.denotes
    (not_cancels_of_nonneg le_rfl (EReal.coe_nonneg.mpr hx'.nonneg))
  rw [zero_add, hx'.denotes.nearest_eq] at hsingle
  exact (hsingle.le_iff hsum).mp hle

/-- Sums of the same terms are the same double as soon as they denote the same number. -/
theorem sum_eq_of_perm {xs ys : List Float} (hperm : xs.Perm ys) (hxs : ∀ x ∈ xs, IsAmount x)
    {v : EReal} (hx : Denotes (xs.foldl (· + ·) (-0.0)) v)
    (hy : Denotes (ys.foldl (· + ·) (-0.0)) v) :
    xs.foldl (· + ·) (-0.0) = ys.foldl (· + ·) (-0.0) := by
  obtain ⟨u, hu, hu₀⟩ := exists_sum xs
    (fun x hx => ⟨_, (hxs x hx).denotes, EReal.coe_nonneg.mpr (hxs x hx).nonneg⟩) (-0.0)
    ⟨0, denotes_neg_zero, le_rfl⟩
  obtain rfl := hu.unique hx
  induction u with
  | bot => exact absurd hu₀ (by simp)
  | top => exact eq_of_denotes_top hx hy
  | coe r =>
    rcases eq_or_ne r 0 with rfl | hr
    · -- Each term is a zero, and which zero the sum is depends on whether one is positive.
      have hzeros : ∀ x ∈ xs, x = 0.0 ∨ x = -0.0 := by
        intro x hmem
        have hle := EReal.coe_le_coe_iff.mp (amount_le_sum hxs hx hmem)
        apply eq_zero_of_denotes
        rw [← EReal.coe_zero, ← le_antisymm hle (hxs x hmem).nonneg]
        exact (hxs x hmem).denotes
      obtain ⟨hzero, hnegative⟩ := sum_zeros hzeros (.inr rfl)
      obtain ⟨hzero', hnegative'⟩ :=
        sum_zeros (fun y hy => hzeros y (hperm.mem_iff.mpr hy)) (.inr rfl)
      rw [← hperm.mem_iff] at hzero' hnegative'
      by_cases hmem : (-0.0 : Float) = 0.0 ∨ 0.0 ∈ xs
      · rw [hzero hmem, hzero' hmem]
      · rw [hnegative hmem, hnegative' hmem]
    · exact eq_of_denotes hx hy hr

end CodeQuality.Double
