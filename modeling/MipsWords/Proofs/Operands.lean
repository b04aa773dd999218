import MipsWords.Operand
import MipsWords.Proofs.Numerals
import MipsWords.Proofs.Registers

/-!
# Operands read back

The text of an operand determines the value of its field, in every style. The
one case with arithmetic in it is the signed immediate: half of the sixteen-bit
values are written with a minus sign, and taking the number behind the sign
modulo `2 ^ 16` undoes the sign extension.

No operand holds a character in front of the digits but for the two signs. So it
holds no comma, which is what lets a line be cut at its commas, and no line feed.
-/

namespace MipsWords.Operand

open Numeral

/-! ## The characters of a text -/

theorem toList_decimal (n : Nat) : (decimal n).toList = padded 10 1 n := String.toList_ofList

theorem toList_hexLiteral (width n : Nat) :
    ("0x" ++ hex width n).toList = '0' :: 'x' :: padded 16 width n := by
  rw [String.toList_append, hex, String.toList_ofList]
  simp

theorem readHex?_hexLiteral (width n : Nat) :
    readHex? ("0x" ++ hex width n).toList = some n := by
  rw [toList_hexLiteral, readHex?, read?_padded (by decide) (by decide)]

/-! ## Signed immediates -/

/-- A run of decimal digits is read without a sign. -/
theorem readSigned16?_padded (n : Nat) :
    readSigned16? (padded 10 1 n) = some (BitVec.ofNat 16 n).toNat := by
  have hsign : '-' ∉ padded 10 1 n :=
    not_mem_padded (by decide) (by decide) (by decide) 1 n
  have hread : Numeral.read? 10 (padded 10 1 n) = some n :=
    read?_padded (by decide) (by decide) 1 n
  rw [readSigned16?.eq_def]
  split
  · next heq => rw [heq] at hsign; exact absurd (List.mem_cons_self ..) hsign
  · rw [hread, Option.map_some]

theorem readSigned16?_signed (i : Int) :
    readSigned16? (signed i).toList = some (BitVec.ofInt 16 i).toNat := by
  rw [signed]
  split
  · next hneg =>
      have habs : -Int.ofNat i.natAbs = i := by rw [Int.ofNat_eq_natCast]; omega
      rw [String.toList_append, toList_decimal]
      show readSigned16? ('-' :: padded 10 1 i.natAbs) = _
      rw [readSigned16?, read?_padded (by decide) (by decide), Option.map_some, habs]
  · next hpos =>
      have habs : (i.natAbs : Int) = i := by omega
      rw [toList_decimal, readSigned16?_padded, ← BitVec.ofInt_natCast, habs]

theorem readImmediate?_immediate (radix : Radix) {value : Nat} (h : value < 2 ^ 16) :
    readImmediate? radix (immediate radix value).toList = some value := by
  cases radix with
  | decimal =>
      rw [readImmediate?, immediate, readSigned16?_signed, signExtend16, BitVec.ofInt_toInt,
        BitVec.toNat_ofNat, Nat.mod_eq_of_lt h]
  | hex => exact readHex?_hexLiteral 4 value

theorem readTarget?_target (radix : Radix) (value : Nat) :
    readTarget? radix (target radix value).toList = some value := by
  cases radix with
  | decimal =>
      rw [readTarget?, target, toList_decimal, read?_padded (by decide) (by decide)]
  | hex => exact readHex?_hexLiteral 1 value

/-! ## All operands -/

/-- The text of an operand reads back as the value of its field. -/
theorem read?_render {style : Style} {name : FieldName} {value : Nat} {text : String}
    (hfit : name = .immediate → value < 2 ^ 16) (h : render style name value = .ok text) :
    read? style name text = some value := by
  cases name with
  | rs | rt | rd =>
      obtain ⟨r, rfl, rfl⟩ := Register.render_eq_ok_iff.mp h
      rw [read?, Register.parse_text]
      rfl
  | immediate =>
      cases h
      exact readImmediate?_immediate style.immediate (hfit rfl)
  | target =>
      cases h
      exact readTarget?_target style.target value
  | shamt | op | func =>
      cases h
      rw [read?, toList_decimal, read?_padded (by decide) (by decide)]

/-! ## What no operand holds -/

variable {c : Char}

theorem not_mem_decimal (hc : c.toNat < 48) (n : Nat) : c ∉ (decimal n).toList := by
  rw [toList_decimal]
  exact not_mem_padded (by decide) (by decide) hc 1 n

theorem not_mem_hexLiteral (hc : c.toNat < 48) (width n : Nat) :
    c ∉ ("0x" ++ hex width n).toList := by
  rw [toList_hexLiteral, List.mem_cons, List.mem_cons]
  rintro (rfl | rfl | hdigit)
  · exact absurd hc (by decide)
  · exact absurd hc (by decide)
  · exact not_mem_padded (by decide) (by decide) hc width n hdigit

theorem not_mem_signed (hc : c.toNat < 48) (hminus : c ≠ '-') (i : Int) :
    c ∉ (signed i).toList := by
  rw [signed]
  split
  · rw [String.toList_append, List.mem_append, not_or]
    exact ⟨fun h => hminus (List.mem_singleton.mp h), not_mem_decimal hc i.natAbs⟩
  · exact not_mem_decimal hc i.natAbs

theorem not_mem_render (hc : c.toNat < 48) (hdollar : c ≠ '$') (hminus : c ≠ '-') {style : Style}
    {name : FieldName} {value : Nat} {text : String} (h : render style name value = .ok text) :
    c ∉ text.toList := by
  cases name with
  | rs | rt | rd =>
      obtain ⟨r, rfl, rfl⟩ := Register.render_eq_ok_iff.mp h
      exact Register.not_mem_text hc hdollar r
  | immediate =>
      cases h
      cases style.immediate with
      | decimal => exact not_mem_signed hc hminus (signExtend16 value)
      | hex => exact not_mem_hexLiteral hc 4 value
  | target =>
      cases h
      cases style.target with
      | decimal => exact not_mem_decimal hc value
      | hex => exact not_mem_hexLiteral hc 1 value
  | shamt | op | func =>
      cases h
      exact not_mem_decimal hc value

end MipsWords.Operand
