import CodeQuality.Json.Printer
import CodeQuality.Json.Token
import Mathlib.Algebra.Group.Nat.Defs
import Mathlib.Data.List.TakeDrop

/-!
Numbers that are written and read back.

A number is written with digits before the point, behind it and in the exponent, and where no
character follows that could continue it, reading finds exactly these parts again.
-/

namespace CodeQuality

/-- What follows a number ends it: no digit, no point and no mark of an exponent. -/
def EndsNumber (rest : List Char) : Prop :=
  ∀ c ∈ rest.head?, c.isDigit = false ∧ c ≠ '.' ∧ c ≠ 'e' ∧ c ≠ 'E'

theorem endsNumber_nil : EndsNumber [] := nofun

/-- The digits before a point: a single zero, or any without a leading zero. -/
def IsWholePart (cs : List Char) : Prop :=
  cs = ['0'] ∨ (cs ≠ [] ∧ cs.head? ≠ some '0' ∧ ∀ c ∈ cs, c.isDigit = true)

/-- The point and the digits behind it, if there are any. -/
def pointChars : List Char → List Char
  | [] => []
  | digits => '.' :: digits

def exponentChars : Option Int → List Char
  | none => []
  | some n => 'e' :: (if n < 0 then ['-'] else ['+']) ++ Decimal.digitChars n.natAbs

/-- A number written with the given parts. -/
def numeralChars (negative : Bool) (whole fraction : List Char) (exponent : Option Int) :
    List Char :=
  (if negative then ['-'] else []) ++ whole ++ pointChars fraction ++ exponentChars exponent

theorem IsWholePart.exists_cons {whole : List Char} (h : IsWholePart whole) :
    ∃ c cs, whole = c :: cs ∧ c.isDigit = true := by
  rcases h with rfl | ⟨hne, -, hdigits⟩
  · exact ⟨'0', [], rfl, by decide⟩
  · cases whole with
    | nil => exact absurd rfl hne
    | cons c cs => exact ⟨c, cs, rfl, hdigits c List.mem_cons_self⟩

namespace JsonToken

theorem spanDigits_append {digits rest : List Char} (h : ∀ c ∈ digits, c.isDigit = true)
    (hrest : ∀ c ∈ rest.head?, c.isDigit = false) :
    spanDigits (digits ++ rest) = (digits, rest) := by
  have hempty : rest.takeWhile Char.isDigit = [] ∧ rest.dropWhile Char.isDigit = rest := by
    cases rest with
    | nil => exact ⟨rfl, rfl⟩
    | cons c rest => simp [hrest c rfl]
  unfold spanDigits
  rw [List.span_eq_takeWhile_dropWhile, List.takeWhile_append_of_pos h,
    List.dropWhile_append_of_pos h, hempty.1, hempty.2, List.append_nil]

theorem fraction?_pointChars {digits rest : List Char} (h : ∀ c ∈ digits, c.isDigit = true)
    (hrest : ∀ c ∈ rest.head?, c.isDigit = false ∧ c ≠ '.') :
    fraction? (pointChars digits ++ rest) = some (digits, rest) := by
  cases digits with
  | nil =>
    show fraction? rest = _
    unfold fraction?
    split
    · exact absurd rfl (hrest '.' rfl).2
    · rfl
  | cons c cs =>
    show fraction? ('.' :: (c :: cs ++ rest)) = _
    rw [fraction?, spanDigits_append h fun c hc => (hrest c hc).1]

/-- An exponent is read with the sign it is written with; a plus sign may stand there. -/
theorem exponent?_exponentChars {exponent : Option Int} {rest : List Char}
    (hrest : ∀ c ∈ rest.head?, c.isDigit = false ∧ c ≠ 'e' ∧ c ≠ 'E') :
    exponent? (exponentChars exponent ++ rest) = some (exponent, rest) := by
  cases exponent with
  | none =>
    cases rest with
    | nil => rfl
    | cons c rest =>
      obtain ⟨-, he, hE⟩ := hrest c rfl
      simp [exponentChars, exponent?, he, hE]
  | some n =>
    have hdigits : ∀ c ∈ Decimal.digitChars n.natAbs, c.isDigit = true := fun c hc =>
      Nat.isDigit_of_mem_toDigits (by decide) (by decide) hc
    have hread := spanDigits_append hdigits fun c hc => (hrest c hc).1
    have hvalue : Decimal.ofDigitChars (Decimal.digitChars n.natAbs) = n.natAbs :=
      Nat.ofDigitChars_ten_toDigits
    have hne : Decimal.digitChars n.natAbs ≠ [] := Nat.toDigits_ne_nil
    rw [exponentChars]
    generalize Decimal.digitChars n.natAbs = digits at hread hvalue hne ⊢
    by_cases hn : n < 0
    · have hneg : -(n.natAbs : Int) = n := by omega
      simp only [hn, ↓reduceIte, List.cons_append, List.nil_append, exponent?, hread]
      cases digits with
      | nil => exact absurd rfl hne
      | cons c cs =>
        show some (some (-(Decimal.ofDigitChars (c :: cs) : Int)), rest) = some (some n, rest)
        rw [hvalue, hneg]
    · have hpos : (n.natAbs : Int) = n := by omega
      simp only [hn, ↓reduceIte, List.cons_append, List.nil_append, exponent?, hread]
      cases digits with
      | nil => exact absurd rfl hne
      | cons c cs =>
        show some (some (Decimal.ofDigitChars (c :: cs) : Int), rest) = some (some n, rest)
        rw [hvalue, hpos]

theorem magnitude?_append (negative : Bool) {whole rest : List Char} (h : IsWholePart whole)
    (hrest : ∀ c ∈ rest.head?, c.isDigit = false) :
    magnitude? negative (whole ++ rest) = (do
      let (fraction, rest) ← fraction? rest
      let (exponent, rest) ← exponent? rest
      return (numberOfDigits negative whole fraction exponent, rest)) := by
  rcases h with rfl | ⟨hne, hzero, hdigits⟩
  · rfl
  · have hread := spanDigits_append hdigits hrest
    cases whole with
    | nil => exact absurd rfl hne
    | cons c cs =>
      rw [List.cons_append] at hread ⊢
      unfold magnitude?
      dsimp only
      split
      next heq =>
        rw [List.cons.injEq] at heq
        exact absurd (congrArg some heq.1) hzero
      next => rw [hread]; rfl

theorem number?_sign {negative : Bool} {c : Char} (h : c.isDigit = true) (cs : List Char) :
    number? ((if negative then ['-'] else []) ++ c :: cs) = magnitude? negative (c :: cs) := by
  cases negative with
  | true => rfl
  | false =>
    show number? (c :: cs) = _
    unfold number?
    split
    next heq =>
      obtain ⟨rfl, -⟩ := List.cons.inj heq
      exact absurd h (by decide)
    next => rfl

/-- A number is read in the parts that it is written in, wherever it ends. -/
theorem number?_numeralChars {negative : Bool} {whole fraction : List Char} {exponent : Option Int}
    {rest : List Char} (hwhole : IsWholePart whole)
    (hfraction : ∀ c ∈ fraction, c.isDigit = true) (hrest : EndsNumber rest) :
    number? (numeralChars negative whole fraction exponent ++ rest) =
      some (numberOfDigits negative whole fraction exponent, rest) := by
  have hexponent : exponent? (exponentChars exponent ++ rest) = some (exponent, rest) :=
    exponent?_exponentChars fun c hc => ⟨(hrest c hc).1, (hrest c hc).2.2⟩
  have hmark : ∀ c ∈ (exponentChars exponent ++ rest).head?, c.isDigit = false ∧ c ≠ '.' := by
    cases exponent with
    | none => exact fun c hc => ⟨(hrest c hc).1, (hrest c hc).2.1⟩
    | some n =>
      intro c hc
      obtain rfl : 'e' = c := Option.some.inj hc
      decide
  have hpoint : ∀ c ∈ (pointChars fraction ++ (exponentChars exponent ++ rest)).head?,
      c.isDigit = false := by
    cases fraction with
    | nil => exact fun c hc => (hmark c hc).1
    | cons d digits =>
      intro c hc
      obtain rfl : '.' = c := Option.some.inj hc
      decide
  obtain ⟨c, cs, hcons, hdigit⟩ := hwhole.exists_cons
  have hmagnitude := magnitude?_append negative hwhole hpoint
  rw [hcons, List.cons_append] at hmagnitude
  unfold numeralChars
  simp only [List.append_assoc]
  rw [hcons, List.cons_append, number?_sign hdigit, hmagnitude,
    fraction?_pointChars hfraction hmark]
  simp [hexponent]

end JsonToken

/-! ## Digits of whole numbers -/

theorem head?_digitChars_ne (n : Nat) (h : n ≠ 0) : (Decimal.digitChars n).head? ≠ some '0' := by
  induction n using Nat.strongRecOn with
  | _ n ih =>
    unfold Decimal.digitChars at ih ⊢
    by_cases hn : n < 10
    · rw [Nat.toDigits_of_lt_base hn, List.head?_cons, ne_eq, Option.some.injEq,
        Nat.digitChar_eq_zero]
      exact h
    · rw [Nat.toDigits_of_base_le (by decide) (by omega)]
      have hrest := ih (n / 10) (by omega) (by omega)
      have hne : Nat.toDigits 10 (n / 10) ≠ [] := Nat.toDigits_ne_nil
      generalize Nat.toDigits 10 (n / 10) = digits at hrest hne ⊢
      cases digits with
      | nil => exact absurd rfl hne
      | cons c cs => exact hrest

theorem isDigit_of_mem_digitChars {n : Nat} {c : Char} (h : c ∈ Decimal.digitChars n) :
    c.isDigit = true :=
  Nat.isDigit_of_mem_toDigits (by decide) (by decide) h

theorem isWholePart_digitChars (n : Nat) : IsWholePart (Decimal.digitChars n) := by
  by_cases h : n = 0
  · exact .inl (by rw [h]; rfl)
  · exact .inr ⟨Nat.toDigits_ne_nil, head?_digitChars_ne n h, fun _ => isDigit_of_mem_digitChars⟩

theorem IsWholePart.append_replicate {digits : List Char} (h : IsWholePart digits) {count : Nat}
    (hcount : digits = ['0'] → count = 0) : IsWholePart (digits ++ List.replicate count '0') := by
  by_cases hzero : digits = ['0']
  · rw [hcount hzero, List.replicate_zero, List.append_nil]
    exact h
  · obtain ⟨hne, hhead, hdigits⟩ := h.resolve_left hzero
    refine .inr ⟨by simp [hne], ?_, ?_⟩
    · cases digits with
      | nil => exact absurd rfl hne
      | cons c cs => exact hhead
    · intro c hc
      rcases List.mem_append.mp hc with hc | hc
      · exact hdigits c hc
      · rw [List.eq_of_mem_replicate hc]
        decide

theorem IsWholePart.take {digits : List Char} (h : IsWholePart digits) {count : Nat}
    (hcount : count ≠ 0) : IsWholePart (digits.take count) := by
  rcases h with rfl | ⟨hne, hhead, hdigits⟩
  · exact .inl (List.take_of_length_le (Nat.one_le_iff_ne_zero.mpr hcount))
  · refine .inr ⟨by simp [hne, hcount], ?_, fun c hc => hdigits c (List.mem_of_mem_take hc)⟩
    rw [List.head?_take, if_neg hcount]
    exact hhead

theorem le_ofDigitChars (cs : List Char) (n : Nat) : n ≤ Nat.ofDigitChars 10 cs n := by
  induction cs generalizing n with
  | nil => exact Nat.le_refl n
  | cons c cs ih =>
    rw [Nat.ofDigitChars_cons]
    have := ih (10 * n + (c.toNat - '0'.toNat))
    omega

/-- Digits that make a number below `2 ^ 64` are all appended. -/
theorem appendDigits_of_lt {cs : List Char} {n : Nat} (h : Nat.ofDigitChars 10 cs n < twoPow 64) :
    appendDigits n cs = (Nat.ofDigitChars 10 cs n, []) := by
  induction cs generalizing n with
  | nil => rfl
  | cons c cs ih =>
    rw [Nat.ofDigitChars_cons] at h ⊢
    have hnext := le_ofDigitChars cs (10 * n + (c.toNat - '0'.toNat))
    rw [appendDigits, if_pos (by omega), ih h]

/-! ## Numbers in data files -/

namespace NumberStyle

theorem positionalText_of_nonneg {digits : List Char} {last : Int} (h : 0 ≤ last) :
    positionalText true digits last =
      digits ++ List.replicate last.toNat '0' ++ pointChars ['0'] := by
  unfold positionalText
  rw [if_pos h]
  rfl

/-- The digits with so many zeros in front that one stands before the point. -/
def padded (digits : List Char) (places : Nat) : List Char :=
  List.replicate (places + 1 - digits.length) '0' ++ digits

variable {digits : List Char} {places : Nat}

theorem lt_length_padded : places < (padded digits places).length := by
  unfold padded
  rw [List.length_append, List.length_replicate]
  omega

theorem isDigit_of_mem_padded (h : ∀ c ∈ digits, c.isDigit = true) {c : Char}
    (hc : c ∈ padded digits places) : c.isDigit = true := by
  rcases List.mem_append.mp hc with hc | hc
  · rw [List.eq_of_mem_replicate hc]
    decide
  · exact h c hc

theorem ofDigitChars_padded :
    Nat.ofDigitChars 10 (padded digits places) 0 = Nat.ofDigitChars 10 digits 0 := by
  unfold padded
  rw [Nat.ofDigitChars_append, Nat.ofDigitChars_replicate_zero, Nat.mul_zero]

/-- What stands before the point has no leading zero but a single one. -/
theorem isWholePart_take_padded (h : IsWholePart digits) :
    IsWholePart ((padded digits places).take ((padded digits places).length - places)) := by
  by_cases hshort : digits.length ≤ places
  · have hlength : (padded digits places).length - places = 1 := by
      unfold padded
      rw [List.length_append, List.length_replicate]
      omega
    have hcount : places + 1 - digits.length = places - digits.length + 1 := by omega
    refine .inl ?_
    rw [hlength, padded, hcount, List.replicate_succ]
    rfl
  · have hsame : padded digits places = digits := by
      rw [padded, show places + 1 - digits.length = 0 by omega]
      rfl
    rw [hsame]
    exact h.take (by omega)

/-- With places behind the point, zeros stand in front as needed. -/
theorem exists_positionalText_of_neg {last : Int} (h : last < 0)
    (hdigits : ∀ c ∈ digits, c.isDigit = true) (hwhole : IsWholePart digits) :
    ∃ whole fraction, positionalText true digits last = whole ++ pointChars fraction ∧
      IsWholePart whole ∧ (∀ c ∈ fraction, c.isDigit = true) ∧ fraction ≠ [] ∧
      (fraction.length : Int) = -last ∧
      Nat.ofDigitChars 10 (whole ++ fraction) 0 = Nat.ofDigitChars 10 digits 0 := by
  obtain ⟨places, rfl⟩ := Int.eq_negSucc_of_lt_zero h
  generalize hall : padded digits (places + 1) = all
  have hlength : places + 1 < all.length := hall ▸ lt_length_padded
  have hfraction : (all.drop (all.length - (places + 1))).length = places + 1 := by
    rw [List.length_drop]
    omega
  refine ⟨_, all.drop (all.length - (places + 1)), ?_, hall ▸ isWholePart_take_padded hwhole,
    ?_, List.ne_nil_of_length_eq_add_one hfraction, congrArg Nat.cast hfraction, ?_⟩
  · cases hdrop : all.drop (all.length - (places + 1)) with
    | nil => exact absurd hdrop (List.ne_nil_of_length_eq_add_one hfraction)
    | cons c cs =>
      show _ = all.take (all.length - (places + 1)) ++ '.' :: c :: cs
      rw [← hdrop, ← hall]
      rfl
  · intro c hc
    exact isDigit_of_mem_padded hdigits (hall ▸ List.mem_of_mem_drop hc)
  · rw [List.take_append_drop, ← hall, ofDigitChars_padded]

theorem exponentText_cons (c : Char) (cs : List Char) (first : Int) :
    exponentText true (c :: cs) first = [c] ++ pointChars cs ++ exponentChars (some first) := by
  unfold exponentText exponentChars pointChars
  cases cs <;> simp

end NumberStyle

-- The power of ten of the last digit; zero has none but the zeroth.
def Decimal.lastPlace (d : Decimal) : Int := if d.digits = 0 then 0 else d.exponent

theorem decimalText_eq (d : Decimal) : NumberStyle.data.decimalText d =
    (if d.negative then ['-'] else []) ++
      if NumberStyle.data.positional
          (d.lastPlace + (Decimal.digitChars d.digits).length - 1) = true then
        NumberStyle.positionalText true (Decimal.digitChars d.digits) d.lastPlace
      else NumberStyle.exponentText true (Decimal.digitChars d.digits)
        (d.lastPlace + (Decimal.digitChars d.digits).length - 1) := rfl

/-- How a decimal number is laid out in a data file. Some of its power of ten may be written as
zeros behind its digits, and a point or an exponent tells it from a whole number. -/
structure DecimalLayout (d : Decimal) (whole fraction : List Char) (exponent : Option Int)
    (zeros : Nat) : Prop where
  digits : Nat.ofDigitChars 10 (whole ++ fraction) 0 = d.digits * 10 ^ zeros
  places : exponent.getD 0 - fraction.length = d.lastPlace - zeros
  marked : (fraction.isEmpty && exponent.isNone) = false
  fits : d.digits < twoPow 64 → d.digits * 10 ^ zeros < twoPow 64
  shifted : zeros = 0 ∨ d.lastPlace - zeros = -1

namespace Decimal

theorem ofDigitChars_digitChars (d : Decimal) :
    Nat.ofDigitChars 10 (digitChars d.digits) 0 = d.digits := Nat.ofDigitChars_ten_toDigits

theorem lastPlace_eq_zero {d : Decimal} (h : digitChars d.digits = ['0']) : d.lastPlace = 0 := by
  have hzero : d.digits = 0 := by
    rw [← d.ofDigitChars_digitChars]
    exact congrArg (Nat.ofDigitChars 10 · 0) h
  exact if_pos hzero

theorem mul_tenPow_lt {d : Decimal} {places : Nat}
    (h : (digitChars d.digits).length + places ≤ 17) : d.digits * 10 ^ places < twoPow 64 := by
  have hlt : d.digits < 10 ^ (digitChars d.digits).length :=
    (Nat.length_toDigits_le_iff (by decide) Nat.length_toDigits_pos).mp (Nat.le_refl _)
  calc d.digits * 10 ^ places < 10 ^ (digitChars d.digits).length * 10 ^ places :=
        Nat.mul_lt_mul_of_pos_right hlt (Nat.pow_pos (by decide))
    _ = 10 ^ ((digitChars d.digits).length + places) := (Nat.pow_add ..).symm
    _ ≤ 10 ^ 17 := Nat.pow_le_pow_right (by decide) h
    _ < twoPow 64 := by decide

/-- A number from one place on up has a zero behind the point. -/
theorem layout_of_nonneg {d : Decimal} (h : 0 ≤ d.lastPlace)
    (hshort : (digitChars d.digits).length + (d.lastPlace.toNat + 1) ≤ 17) :
    DecimalLayout d (digitChars d.digits ++ List.replicate d.lastPlace.toNat '0') ['0'] none
      (d.lastPlace.toNat + 1) where
  digits := by
    rw [Nat.ofDigitChars_append, Nat.ofDigitChars_append, d.ofDigitChars_digitChars,
      Nat.ofDigitChars_replicate_zero, Nat.pow_succ]
    show 10 * (10 ^ d.lastPlace.toNat * d.digits) + 0 = _
    rw [Nat.add_zero, Nat.mul_comm, Nat.mul_comm (10 ^ d.lastPlace.toNat), Nat.mul_assoc]
  places := by
    show (0 : Int) - 1 = d.lastPlace - (d.lastPlace.toNat + 1 : Nat)
    omega
  marked := rfl
  fits _ := mul_tenPow_lt hshort
  shifted := by omega

/-- A numeral that has the digits of a number and no further zeros. -/
theorem layout_of_digits {d : Decimal} {whole fraction : List Char} {exponent : Option Int}
    (hdigits : Nat.ofDigitChars 10 (whole ++ fraction) 0 = d.digits)
    (hplaces : exponent.getD 0 - fraction.length = d.lastPlace)
    (hmarked : (fraction.isEmpty && exponent.isNone) = false) :
    DecimalLayout d whole fraction exponent 0 where
  digits := by rw [hdigits, Nat.pow_zero, Nat.mul_one]
  places := hplaces.trans (Int.sub_zero _).symm
  marked := hmarked
  fits h := by rwa [Nat.pow_zero, Nat.mul_one]
  shifted := .inl rfl

theorem exists_layout_positional {d : Decimal}
    (hlength : (digitChars d.digits).length + d.lastPlace ≤ 16) :
    ∃ whole fraction zeros,
      NumberStyle.positionalText true (digitChars d.digits) d.lastPlace =
          whole ++ pointChars fraction ∧
        IsWholePart whole ∧ (∀ c ∈ fraction, c.isDigit = true) ∧
        DecimalLayout d whole fraction none zeros := by
  have hwhole := isWholePart_digitChars d.digits
  by_cases hlast : 0 ≤ d.lastPlace
  · have hcount : digitChars d.digits = ['0'] → d.lastPlace.toNat = 0 := by
      intro hzero
      rw [lastPlace_eq_zero hzero]
      rfl
    exact ⟨_, ['0'], _, NumberStyle.positionalText_of_nonneg hlast,
      hwhole.append_replicate hcount, List.forall_mem_singleton.mpr (by decide),
      layout_of_nonneg hlast (by omega)⟩
  · obtain ⟨whole, fraction, htext, hw, hf, hne, hplaces, hdigits⟩ :=
      NumberStyle.exists_positionalText_of_neg (Int.not_le.mp hlast)
        (fun _ => isDigit_of_mem_digitChars) hwhole
    refine ⟨whole, fraction, 0, htext, hw, hf, layout_of_digits ?_ ?_ ?_⟩
    · rw [hdigits, d.ofDigitChars_digitChars]
    · rw [hplaces, Option.getD_none]
      omega
    · rw [List.isEmpty_eq_false_iff.mpr hne]
      rfl

theorem exists_layout_scientific (d : Decimal) :
    ∃ whole fraction exponent,
      NumberStyle.exponentText true (digitChars d.digits)
          (d.lastPlace + (digitChars d.digits).length - 1) =
          whole ++ pointChars fraction ++ exponentChars exponent ∧
        IsWholePart whole ∧ (∀ c ∈ fraction, c.isDigit = true) ∧
        DecimalLayout d whole fraction exponent 0 := by
  have hwhole := isWholePart_digitChars d.digits
  have hdigits : ∀ c ∈ digitChars d.digits, c.isDigit = true := fun _ => isDigit_of_mem_digitChars
  have hvalue := d.ofDigitChars_digitChars
  cases hsplit : digitChars d.digits with
  | nil => exact absurd hsplit Nat.toDigits_ne_nil
  | cons c cs =>
    rw [hsplit] at hwhole hdigits hvalue
    have hone : IsWholePart ((c :: cs).take 1) := hwhole.take Nat.one_ne_zero
    refine ⟨[c], cs, _, NumberStyle.exponentText_cons .., hone,
      fun e he => hdigits e (List.mem_cons_of_mem c he), layout_of_digits hvalue ?_ ?_⟩
    · rw [Option.getD_some, List.length_cons]
      omega
    · exact Bool.and_false _

end Decimal

theorem exists_decimalText (d : Decimal) : ∃ whole fraction exponent zeros,
    NumberStyle.data.decimalText d = numeralChars d.negative whole fraction exponent ∧
      IsWholePart whole ∧ (∀ c ∈ fraction, c.isDigit = true) ∧
      DecimalLayout d whole fraction exponent zeros := by
  by_cases hpositional : NumberStyle.data.positional
      (d.lastPlace + (Decimal.digitChars d.digits).length - 1) = true
  · have hrange := hpositional
    change (decide _ && decide _) = true at hrange
    rw [Bool.and_eq_true, decide_eq_true_eq, decide_eq_true_eq] at hrange
    obtain ⟨whole, fraction, zeros, htext, hw, hf, hlayout⟩ :=
      d.exists_layout_positional (by omega)
    refine ⟨whole, fraction, none, zeros, ?_, hw, hf, hlayout⟩
    rw [decimalText_eq, if_pos hpositional, htext]
    simp [numeralChars, exponentChars]
  · obtain ⟨whole, fraction, exponent, htext, hw, hf, hlayout⟩ := d.exists_layout_scientific
    refine ⟨whole, fraction, exponent, 0, ?_, hw, hf, hlayout⟩
    rw [decimalText_eq, if_neg hpositional, htext]
    simp [numeralChars]

/-! ## Numbers as tokens -/

namespace JsonNumber

/-- The number as which the characters of a number are read. -/
def respelled (n : JsonNumber) : JsonNumber :=
  ((JsonToken.number? (Json.numberChars n)).map Prod.fst).getD n

theorem respelled_of_numeralChars {n : JsonNumber} {negative : Bool} {whole fraction : List Char}
    {exponent : Option Int} (h : Json.numberChars n = numeralChars negative whole fraction exponent)
    (hwhole : IsWholePart whole) (hfraction : ∀ c ∈ fraction, c.isDigit = true) :
    n.respelled = JsonToken.numberOfDigits negative whole fraction exponent := by
  have hread : JsonToken.number? (numeralChars negative whole fraction exponent ++ []) = _ :=
    JsonToken.number?_numeralChars hwhole hfraction endsNumber_nil
  rw [List.append_nil, ← h] at hread
  unfold respelled
  rw [hread]
  rfl

theorem numberChars_whole (negative : Bool) (n : Nat) :
    Json.numberChars (.whole negative n) =
      numeralChars negative (Decimal.digitChars n) [] none := by
  simp [Json.numberChars, numeralChars, pointChars, exponentChars]

/-- A whole number of 64 bits is read back as it is. -/
theorem respelled_whole (negative : Bool) {n : Nat} (h : n < twoPow 64) :
    (whole negative n).respelled = whole negative n := by
  have hdigits : Nat.ofDigitChars 10 (Decimal.digitChars n) 0 = n := Nat.ofDigitChars_ten_toDigits
  have happend : appendDigits 0 (Decimal.digitChars n) = (n, []) := by
    rw [appendDigits_of_lt (by rwa [hdigits]), hdigits]
  rw [respelled_of_numeralChars (numberChars_whole negative n) (isWholePart_digitChars n) nofun]
  unfold JsonToken.numberOfDigits
  rw [happend]
  rfl

/-- A decimal number of 64 bits is read back as the same number, perhaps with all of its power of
ten and one place more among the digits. -/
theorem exists_respelled_decimal (d : Decimal) (h : d.digits < twoPow 64) :
    ∃ zeros : Nat, (decimal d).respelled =
        decimal ⟨d.negative, d.digits * 10 ^ zeros, d.lastPlace - zeros⟩ ∧
      d.digits * 10 ^ zeros < twoPow 64 ∧ (zeros = 0 ∨ d.lastPlace - zeros = -1) := by
  obtain ⟨whole, fraction, exponent, zeros, htext, hwhole, hfraction, hlayout⟩ :=
    exists_decimalText d
  have hfits := hlayout.fits h
  have htotal := hlayout.digits
  rw [Nat.ofDigitChars_append] at htotal
  have hle := le_ofDigitChars fraction (Nat.ofDigitChars 10 whole 0)
  have hwholeDigits :=
    appendDigits_of_lt (show Nat.ofDigitChars 10 whole 0 < twoPow 64 by omega)
  have hallDigits := appendDigits_of_lt
    (show Nat.ofDigitChars 10 fraction (Nat.ofDigitChars 10 whole 0) < twoPow 64 by omega)
  refine ⟨zeros, ?_, hfits, hlayout.shifted⟩
  have hchars : Json.numberChars (decimal d) =
      numeralChars d.negative whole fraction exponent := htext
  rw [respelled_of_numeralChars hchars hwhole hfraction]
  unfold JsonToken.numberOfDigits
  simp only [hwholeDigits, hallDigits, hlayout.marked, htotal, Bool.false_and, Bool.false_eq_true,
    if_false]
  have hplaces := hlayout.places
  congr 2
  simp only [List.length_nil]
  omega

theorem exists_numeralChars (n : JsonNumber) : ∃ negative whole fraction exponent,
    Json.numberChars n = numeralChars negative whole fraction exponent ∧ IsWholePart whole ∧
      ∀ c ∈ fraction, c.isDigit = true := by
  cases n with
  | whole negative n =>
    exact ⟨_, _, _, _, numberChars_whole negative n, isWholePart_digitChars n, nofun⟩
  | decimal d =>
    obtain ⟨whole, fraction, exponent, _, h, hwhole, hfraction, -⟩ := exists_decimalText d
    exact ⟨_, _, _, _, h, hwhole, hfraction⟩

end JsonNumber

namespace JsonToken

theorem next?_of_number {c : Char} (h : c = '-' ∨ c.isDigit = true) (cs : List Char) :
    next? (c :: cs) = (number? (c :: cs)).map fun (n, rest) => (.scalar (.number n), rest) := by
  unfold next?
  split
  case h_11 => cases number? (c :: cs) <;> rfl
  all_goals
    -- No other token begins with a sign or a digit.
    rename_i heq
    obtain ⟨rfl, -⟩ := List.cons.inj heq
    exact absurd h (by decide)

theorem exists_cons_numeralChars (negative : Bool) {whole : List Char} (h : IsWholePart whole)
    (fraction : List Char) (exponent : Option Int) :
    ∃ c cs, numeralChars negative whole fraction exponent = c :: cs ∧
      (c = '-' ∨ c.isDigit = true) := by
  obtain ⟨c, cs, rfl, hdigit⟩ := h.exists_cons
  cases negative with
  | true => exact ⟨'-', _, rfl, .inl rfl⟩
  | false => exact ⟨c, _, rfl, .inr hdigit⟩

/-- What is written of a number is read as its respelled form wherever it ends. -/
theorem next?_numberChars (n : JsonNumber) {rest : List Char} (h : EndsNumber rest) :
    next? (Json.numberChars n ++ rest) = some (.scalar (.number n.respelled), rest) := by
  obtain ⟨negative, whole, fraction, exponent, hchars, hwhole, hfraction⟩ := n.exists_numeralChars
  have hread : number? (numeralChars negative whole fraction exponent ++ rest) = _ :=
    number?_numeralChars hwhole hfraction h
  rw [n.respelled_of_numeralChars hchars hwhole hfraction, hchars]
  obtain ⟨c, cs, hcons, hc⟩ := exists_cons_numeralChars negative hwhole fraction exponent
  rw [hcons, List.cons_append] at hread ⊢
  rw [next?_of_number hc, hread]
  rfl

end JsonToken

end CodeQuality
