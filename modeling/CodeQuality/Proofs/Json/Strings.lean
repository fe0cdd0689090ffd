import CodeQuality.Json.Printer
import CodeQuality.Json.Token

/-!
Strings that are written and read back.

Every character is written as itself or as an escape, and what is written of it is read as one unit
that stands for it alone. So every text is read back, and a string without a text stays without one.
-/

namespace CodeQuality

open JsonToken (stringUnits escaped? next?)

theorem hexNumber?_hexByte : ∀ n < 0x20, hexNumber? ('0' :: '0' :: hexByte n) = some n := by decide

/-- No control character is half of a surrogate pair. -/
theorem decode_code_of_control {c : Char} (h : c.toNat < 0x20) (units : List TextUnit) :
    TextUnit.decode (.code c.toNat :: units) = (TextUnit.decode units).map (c :: ·) := by
  have hhigh : TextUnit.isHighSurrogate c.toNat = false := by
    simp only [TextUnit.isHighSurrogate, Bool.and_eq_false_iff, decide_eq_false_iff_not]
    omega
  have hlow : TextUnit.isLowSurrogate c.toNat = false := by
    simp only [TextUnit.isLowSurrogate, Bool.and_eq_false_iff, decide_eq_false_iff_not]
    omega
  rw [TextUnit.decode.eq_def]
  simp only [hhigh, hlow, Bool.false_eq_true, ↓reduceIte, Char.ofNat_toNat]

/-- The characters are read as one unit that stands for `c`, whatever follows. -/
def ReadAsUnit (chars : List Char) (c : Char) : Prop :=
  ∃ u, (∀ units, TextUnit.decode (u :: units) = (TextUnit.decode units).map (c :: ·)) ∧
    ∀ rest, stringUnits (chars ++ rest) =
      (stringUnits rest).map fun (units, rest) => (u :: units, rest)

/-- An escape with a letter stands for the character right away. -/
theorem readAsUnit_letter {c e : Char} (hu : e ≠ 'u') (he : escaped? e = some c) :
    ReadAsUnit ['\\', e] c := by
  refine ⟨.char c, fun _ => rfl, fun rest => ?_⟩
  cases h : stringUnits rest <;> simp [stringUnits, hu, he, h]

theorem readAsUnit_control {c : Char} (h : c.toNat < 0x20) :
    ReadAsUnit ('\\' :: 'u' :: '0' :: '0' :: hexByte c.toNat) c := by
  refine ⟨.code c.toNat, decode_code_of_control h, fun rest => ?_⟩
  have hcode := hexNumber?_hexByte c.toNat h
  unfold hexByte at hcode ⊢
  cases h : stringUnits rest <;> simp [stringUnits, hcode, h]

theorem readAsUnit_plain {c : Char} (hquote : c ≠ '"') (hbackslash : c ≠ '\\')
    (hplain : ¬ c.toNat < 0x20) : ReadAsUnit [c] c := by
  refine ⟨.char c, fun _ => rfl, fun rest => ?_⟩
  cases h : stringUnits rest <;> simp [stringUnits, hbackslash, hplain, h]

/-- What is written of one character is read as one unit that stands for it. -/
theorem readAsUnit_escapeChar (c : Char) : ReadAsUnit (Json.escapeChar c) c := by
  unfold Json.escapeChar
  split
  next h => exact readAsUnit_letter (by decide) (by rw [h]; rfl)
  next hquote =>
  split
  next h => exact readAsUnit_letter (by decide) (by rw [h]; rfl)
  next hbackslash =>
  split
  next h => exact readAsUnit_letter (by decide) (by rw [h]; rfl)
  split
  next h => exact readAsUnit_letter (by decide) (by rw [h]; rfl)
  split
  next h => exact readAsUnit_letter (by decide) (by rw [h]; rfl)
  split
  next h => exact readAsUnit_letter (by decide) (by rw [h]; rfl)
  split
  next h => exact readAsUnit_letter (by decide) (by rw [h]; rfl)
  split
  next hcontrol => exact readAsUnit_control hcontrol
  next hplain => exact readAsUnit_plain hquote hbackslash hplain

theorem exists_textUnits (cs : List Char) : ∃ units, TextUnit.decode units = some cs ∧
    ∀ rest, stringUnits (cs.flatMap Json.escapeChar ++ '"' :: rest) = some (units, rest) := by
  induction cs with
  | nil => exact ⟨[], rfl, fun _ => rfl⟩
  | cons c cs ih =>
    obtain ⟨units, hunits, hread⟩ := ih
    obtain ⟨u, hu, hchar⟩ := readAsUnit_escapeChar c
    refine ⟨u :: units, by rw [hu, hunits]; rfl, fun rest => ?_⟩
    rw [List.flatMap_cons, List.append_assoc, hchar, hread]
    rfl

/-- What is written of a string is read as that string, whatever follows. -/
theorem next?_textChars (t : JsonText) (rest : List Char) :
    next? (Json.textChars t ++ rest) = some (.string t, rest) := by
  cases t with
  | none => rfl
  | some s =>
    obtain ⟨units, hunits, hread⟩ := exists_textUnits s.toList
    have hquote : Json.textChars (some s) ++ rest =
        '"' :: (s.toList.flatMap Json.escapeChar ++ '"' :: rest) := by
      simp [Json.textChars, Json.quote]
    rw [hquote, next?, hread]
    simp [hunits]

end CodeQuality
