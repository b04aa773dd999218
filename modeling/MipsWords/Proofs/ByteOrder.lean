import Mathlib

/-!
# The order of strings is the order of their bytes

Strings are ordered by their characters, and so are the keys of a table file. In
UTF-8 that is the order of the bytes too: a character with fewer bytes has a
smaller first byte, and of two characters with as many bytes the first bytes that
differ are in the order of the characters. The encoding of one character is
never the beginning of another's, so what follows them does not matter.
-/

namespace MipsWords

/-- The UTF-8 encoding of a string. -/
def utf8 (s : String) : List UInt8 := s.toUTF8.data.toList

theorem utf8_eq_flatMap (s : String) : utf8 s = s.toList.flatMap String.utf8EncodeChar := by
  rw [utf8, String.toUTF8_eq_toByteArray, ← String.utf8Encode_toList, List.utf8Encode]
  simp

theorem bytes_lt {m n : Nat} (hm : m < 256) (hn : n < 256) {xs ys : List UInt8}
    (h : m < n ∨ m = n ∧ xs < ys) : UInt8.ofNat m :: xs < UInt8.ofNat n :: ys := by
  rw [List.cons_lt_cons_iff]
  rcases h with hlt | ⟨rfl, hlt⟩
  · left
    rw [UInt8.lt_iff_toNat_lt, UInt8.toNat_ofNat', UInt8.toNat_ofNat']
    omega
  · exact .inr ⟨rfl, hlt⟩

/-- The smaller character has the smaller bytes, whatever follows. -/
theorem utf8EncodeChar_append_lt {c d : Char} (h : c < d) (xs ys : List UInt8) :
    String.utf8EncodeChar c ++ xs < String.utf8EncodeChar d ++ ys := by
  have hlt : c.val.toNat < d.val.toNat := h
  have hmax : d.val.toNat < 0x110000 := by
    have hvalid := d.valid
    simp only [UInt32.isValidChar, Nat.isValidChar] at hvalid
    omega
  simp only [String.utf8EncodeChar]
  generalize c.val.toNat = m at hlt
  generalize d.val.toNat = n at hlt hmax
  by_cases hm : m ≤ 0x7f
  · rw [if_pos hm]
    split_ifs <;> exact bytes_lt (by omega) (by omega) (.inl (by omega))
  rw [if_neg hm, if_neg (by omega : ¬n ≤ 0x7f)]
  by_cases hm : m ≤ 0x7ff
  · rw [if_pos hm]
    split_ifs
    · refine bytes_lt (by omega) (by omega) ?_
      by_cases hfirst : m / 64 < n / 64
      · exact .inl (by omega)
      · exact .inr ⟨by omega, bytes_lt (by omega) (by omega) (.inl (by omega))⟩
    · exact bytes_lt (by omega) (by omega) (.inl (by omega))
    · exact bytes_lt (by omega) (by omega) (.inl (by omega))
  rw [if_neg hm, if_neg (by omega : ¬n ≤ 0x7ff)]
  by_cases hm : m ≤ 0xffff
  · rw [if_pos hm]
    split_ifs
    · refine bytes_lt (by omega) (by omega) ?_
      by_cases hfirst : m / 4096 < n / 4096
      · exact .inl (by omega)
      refine .inr ⟨by omega, bytes_lt (by omega) (by omega) ?_⟩
      by_cases hsecond : m / 64 < n / 64
      · exact .inl (by omega)
      · exact .inr ⟨by omega, bytes_lt (by omega) (by omega) (.inl (by omega))⟩
    · exact bytes_lt (by omega) (by omega) (.inl (by omega))
  rw [if_neg hm, if_neg (by omega : ¬n ≤ 0xffff)]
  refine bytes_lt (by omega) (by omega) ?_
  by_cases hfirst : m / 262144 < n / 262144
  · exact .inl (by omega)
  refine .inr ⟨by omega, bytes_lt (by omega) (by omega) ?_⟩
  by_cases hsecond : m / 4096 < n / 4096
  · exact .inl (by omega)
  refine .inr ⟨by omega, bytes_lt (by omega) (by omega) ?_⟩
  by_cases hthird : m / 64 < n / 64
  · exact .inl (by omega)
  · exact .inr ⟨by omega, bytes_lt (by omega) (by omega) (.inl (by omega))⟩

theorem flatMap_utf8EncodeChar_lt {cs ds : List Char} (h : cs < ds) :
    cs.flatMap String.utf8EncodeChar < ds.flatMap String.utf8EncodeChar := by
  induction h with
  | @nil d ds =>
      rw [List.flatMap_nil, List.flatMap_cons]
      cases hd : String.utf8EncodeChar d with
      | nil => exact absurd hd String.utf8EncodeChar_ne_nil
      | cons byte rest => exact List.nil_lt_cons ..
  | rel hlt =>
      rw [List.flatMap_cons, List.flatMap_cons]
      exact utf8EncodeChar_append_lt hlt _ _
  | cons _ ih =>
      rw [List.flatMap_cons, List.flatMap_cons]
      exact List.append_left_lt ih

theorem utf8_lt {a b : String} (h : a < b) : utf8 a < utf8 b := by
  rw [utf8_eq_flatMap, utf8_eq_flatMap]
  exact flatMap_utf8EncodeChar_lt h

end MipsWords
