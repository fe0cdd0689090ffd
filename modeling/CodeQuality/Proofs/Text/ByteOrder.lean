import Mathlib.Data.List.Lex
import Mathlib.Data.String.Basic

/-!
The order of texts and the order of their bytes.

Texts compare character by character. Their encodings in UTF-8 compare the same way byte by byte,
since of two characters the greater one has the greater byte at the first place where their
encodings differ, and they do differ before either ends.
-/

namespace CodeQuality

/-! ## Characters -/

theorem toNat_val_lt (c : Char) : c.val.toNat < 0x110000 := by
  rcases c.valid with h | ⟨-, h⟩
  · exact Nat.lt_trans h (by decide)
  · exact h

theorem ofNat_cons_lt_iff {a b : ℕ} (ha : a < 256) (hb : b < 256) (r s : List UInt8) :
    UInt8.ofNat a :: r < UInt8.ofNat b :: s ↔ a < b ∨ a = b ∧ r < s := by
  have heq : UInt8.ofNat a = UInt8.ofNat b ↔ a = b := by
    rw [← UInt8.toNat_inj, UInt8.toNat_ofNat_of_lt' ha, UInt8.toNat_ofNat_of_lt' hb]
  rw [List.cons_lt_cons_iff, UInt8.ofNat_lt_iff_lt ha hb, heq]

/-- A greater character encodes as greater bytes, whatever follows. -/
theorem utf8EncodeChar_append_lt {c d : Char} (h : c < d) (r s : List UInt8) :
    String.utf8EncodeChar c ++ r < String.utf8EncodeChar d ++ s := by
  have hlt : c.val.toNat < d.val.toNat := h
  have hc := toNat_val_lt c
  have hd := toNat_val_lt d
  unfold String.utf8EncodeChar
  generalize c.val.toNat = m at hlt hc ⊢
  generalize d.val.toNat = n at hlt hd ⊢
  have hm : m = m / 262144 % 8 * 262144 + m / 4096 % 64 * 4096 + m / 64 % 64 * 64 + m % 64 := by
    omega
  have hn : n = n / 262144 % 8 * 262144 + n / 4096 % 64 * 4096 + n / 64 % 64 * 64 + n % 64 := by
    omega
  -- An encoding with more bytes starts with a greater byte; encodings of one length hold the
  -- digits of the characters, the highest first.
  dsimp only
  split_ifs <;> simp (disch := omega) only [List.cons_append, ofNat_cons_lt_iff] <;> omega

/-! ## Texts -/

theorem utf8EncodeChar_append_ne_nil (c : Char) (r : List UInt8) :
    String.utf8EncodeChar c ++ r ≠ [] := by
  unfold String.utf8EncodeChar
  dsimp only
  split_ifs <;> exact List.cons_ne_nil _ _

theorem flatMap_utf8EncodeChar_lt {cs ds : List Char} (h : cs < ds) :
    cs.flatMap String.utf8EncodeChar < ds.flatMap String.utf8EncodeChar := by
  -- On the first place where the texts differ.
  induction h with
  | @nil d rest =>
    rw [List.flatMap_nil, List.flatMap_cons]
    obtain ⟨b, bs, hbs⟩ := List.exists_cons_of_ne_nil (utf8EncodeChar_append_ne_nil d _)
    rw [hbs]
    exact List.nil_lt_cons b bs
  | cons _ ih =>
    rw [List.flatMap_cons, List.flatMap_cons]
    exact List.append_left_lt ih
  | rel h =>
    rw [List.flatMap_cons, List.flatMap_cons]
    exact utf8EncodeChar_append_lt h _ _

/-- The bytes of a text. -/
def bytes (s : String) : List UInt8 := s.toUTF8.data.toList

theorem bytes_eq (s : String) : bytes s = s.toList.flatMap String.utf8EncodeChar := by
  have hbytes : s.toUTF8 = (s.toList.flatMap String.utf8EncodeChar).toByteArray := by
    conv_lhs => rw [← String.ofList_toList (s := s), String.toUTF8_eq_toByteArray]
    rfl
  rw [bytes, hbytes, List.data_toByteArray]

theorem bytes_lt {s t : String} (h : s < t) : bytes s < bytes t := by
  rw [bytes_eq, bytes_eq]
  exact flatMap_utf8EncodeChar_lt (String.lt_iff_toList_lt.mp h)

theorem le_iff_bytes_le (s t : String) : s ≤ t ↔ bytes s ≤ bytes t := by
  constructor
  · intro h
    rcases h.lt_or_eq with hlt | rfl
    · exact List.le_of_lt (bytes_lt hlt)
    · exact List.le_refl _
  · intro h
    by_contra hgt
    exact List.not_lt.mpr h (bytes_lt (not_le.mp hgt))

end CodeQuality
