import Mathlib
import MipsWords.Proofs.Numerals
import MipsWords.Word.Text

/-!
# Words in binary

A word has one text in binary, its numeral of 32 digits, and no other text reads
as the word. Digits of one length are told apart by their number, so both
directions come down to the length of that numeral: a number below `2 ^ 32`
needs no more than 32 digits, and the zeros in front make up for the rest.

Every other text has another length, and that is said whatever it holds, or it
has a character that is no bit, and of these the first is reported.

The reader looks for that character before it takes the digits for a number. A
register of 32 bits that the digits are shifted into one by one, up to a
character that is no bit, holds the same at its end: the bits that it could lose
at the top are zeros, because no more than 32 come in.
-/

namespace MipsWords

namespace Numeral

/-! ## Numerals of a given length -/

theorem readFrom?_bits {cs : List Char} (h : ∀ c ∈ cs, c = '0' ∨ c = '1') (n : Nat) :
    readFrom? 2 n cs = some (cs.foldl (fun n c => 2 * n + if c = '1' then 1 else 0) n) := by
  induction cs generalizing n with
  | nil => rfl
  | cons c rest ih =>
      have hc : digit? 2 c = some (if c = '1' then 1 else 0) := by
        rcases h c (List.mem_cons_self ..) with rfl | rfl <;> decide
      rw [readFrom?, hc, Option.bind_some, ih fun d hd => h d (List.mem_cons_of_mem _ hd),
        List.foldl_cons, Nat.mul_comm]

theorem eq_of_digit? {c : Char} {d : Nat} (h : digit? 2 c = some d) : c = '0' ∨ c = '1' := by
  have hlt := digit?_lt h
  have hc := toNat_of_digit? (by decide) h
  have hcases : c.toNat = '0'.toNat ∨ c.toNat = '1'.toNat := by
    show c.toNat = 48 ∨ c.toNat = 49
    omega
  exact hcases.imp Char.toNat_inj.mp Char.toNat_inj.mp

theorem mem_padded_two {width n : Nat} {c : Char} (h : c ∈ padded 2 width n) :
    c = '0' ∨ c = '1' := by
  have hread := readFrom?_padded (b := 2) (by decide) (by decide) width n
  obtain ⟨d, hd⟩ := Option.isSome_iff_exists.mp (isSome_digit?_of_readFrom? hread c h)
  exact eq_of_digit? hd

/-- A number that fits in some digits has a numeral of just as many. -/
theorem length_padded {b width n : Nat} (hb : 2 ≤ b) (hwidth : 0 < width) (h : n < b ^ width) :
    (padded b width n).length = width := by
  have hle : (Nat.toDigits b n).length ≤ width := (Nat.length_toDigits_le_iff hb hwidth).mpr h
  show (List.replicate (width - (Nat.toDigits b n).length) '0' ++ Nat.toDigits b n).length = width
  rw [List.length_append, List.length_replicate, Nat.sub_add_cancel hle]

theorem toList_binary (width n : Nat) : (binary width n).toList = padded 2 width n :=
  String.toList_ofList

/-- Up to base ten, digits are the numeral in their own length of the number that they stand for. -/
theorem eq_padded {b n : Nat} {cs : List Char} (hb2 : 2 ≤ b) (hb : b ≤ 10) (hne : cs ≠ [])
    (h : readFrom? b 0 cs = some n) : cs = padded b cs.length n := by
  have hlt : n < b ^ cs.length := by
    have hbound := readFrom?_lt h
    rwa [Nat.zero_add, Nat.one_mul] at hbound
  have hlength : (padded b cs.length n).length = cs.length :=
    length_padded hb2 (List.length_pos_iff.mpr hne) hlt
  exact (readFrom?_injective hb hlength.symm h
    (readFrom?_padded hb2 (by omega) cs.length n)).2

end Numeral

namespace Word

open Numeral

/-! ## The first character that is no bit -/

/-- The first character of a text that is neither `0` nor `1`, with its index. -/
structure FirstNonBit (cs : List Char) (c : Char) (position : Nat) : Prop where
  found : cs[position]? = some c
  not_bit : c ≠ '0' ∧ c ≠ '1'
  bits_before : ∀ i < position, cs[i]? = some '0' ∨ cs[i]? = some '1'

/-- The first of some characters with their indices that is no bit. -/
def nonBit? (pairs : List (Char × Nat)) : Option (Char × Nat) :=
  pairs.find? fun (c, _) => c ≠ '0' && c ≠ '1'

theorem firstNonBit_of_nonBit? {cs : List Char} {c : Char} {position : Nat}
    (h : nonBit? cs.zipIdx = some (c, position)) : FirstNonBit cs c position := by
  obtain ⟨hc, i, hi, hat, hbefore⟩ := List.find?_eq_some_iff_getElem.mp h
  rw [List.getElem_zipIdx, Nat.zero_add] at hat
  rw [List.length_zipIdx] at hi
  obtain ⟨rfl, rfl⟩ := Prod.mk.inj hat
  refine ⟨List.getElem?_eq_getElem hi, by simpa using hc, fun j hj => ?_⟩
  have hbit := hbefore j hj
  rw [List.getElem_zipIdx] at hbit
  rw [List.getElem?_eq_getElem (hj.trans hi), Option.some_inj, Option.some_inj]
  simpa [or_iff_not_imp_left] using hbit

theorem nonBit?_eq_none_iff {cs : List Char} :
    nonBit? cs.zipIdx = none ↔ ∀ c ∈ cs, c = '0' ∨ c = '1' := by
  have hall : nonBit? cs.zipIdx = none ↔ ∀ pair ∈ cs.zipIdx, pair.1 = '0' ∨ pair.1 = '1' := by
    rw [nonBit?, List.find?_eq_none]
    simp [or_iff_not_imp_left]
  rw [hall, ← List.forall_mem_map (f := Prod.fst) (P := fun c => c = '0' ∨ c = '1'),
    List.zipIdx_map_fst]

/-! ## Reading and writing -/

theorem ofBits_of_length {text : String} (h : text.length = 32) :
    ofBits text = match nonBit? text.toList.zipIdx with
      | some (c, position) => .error (.bitCharacter c position)
      | none => .ok (BitVec.ofNat 32 (bitsValue text.toList)) :=
  if_pos (String.length_toList.trans h)

theorem ofBits_of_length_ne {text : String} (h : text.length ≠ 32) :
    ofBits text = .error (.wordLength text.length) := by
  rw [ofBits, String.length_toList]
  exact if_neg h

theorem ofBits_eq_ok_iff {text : String} {w : Word} :
    ofBits text = .ok w ↔ text.length = 32 ∧ (∀ c ∈ text.toList, c = '0' ∨ c = '1') ∧
      w = BitVec.ofNat 32 (bitsValue text.toList) := by
  by_cases hlength : text.length = 32
  · rw [ofBits_of_length hlength, ← nonBit?_eq_none_iff]
    cases nonBit? text.toList.zipIdx with
    | some _ => simp
    | none => simp [hlength, eq_comm]
  · rw [ofBits_of_length_ne hlength]
    exact iff_of_false nofun fun h => hlength h.1

theorem mem_of_ofBits {text : String} {w : Word} (h : ofBits text = .ok w) :
    ∀ c ∈ text.toList, c = '0' ∨ c = '1' := (ofBits_eq_ok_iff.mp h).2.1

theorem toList_toBits (w : Word) : w.toBits.toList = padded 2 32 w.toNat := toList_binary 32 w.toNat

theorem length_toBits (w : Word) : w.toBits.length = 32 := by
  rw [← String.length_toList, toList_toBits, length_padded (by decide) (by decide) w.isLt]

theorem bitsValue_toBits (w : Word) : bitsValue w.toBits.toList = w.toNat := by
  have hbits : ∀ c ∈ padded 2 32 w.toNat, c = '0' ∨ c = '1' := fun _ => mem_padded_two
  have hread := readFrom?_padded (b := 2) (by decide) (by decide) 32 w.toNat
  rw [readFrom?_bits hbits] at hread
  rw [toList_toBits]
  exact Option.some_inj.mp hread

theorem ofBits_toBits (w : Word) : ofBits w.toBits = .ok w := by
  refine ofBits_eq_ok_iff.mpr ⟨length_toBits w, fun c hc => ?_, ?_⟩
  · rw [toList_toBits] at hc
    exact mem_padded_two hc
  · rw [bitsValue_toBits, BitVec.ofNat_toNat, BitVec.setWidth_eq]

theorem bitsValue_lt {cs : List Char} (h : ∀ c ∈ cs, c = '0' ∨ c = '1') :
    bitsValue cs < 2 ^ cs.length := by
  have hbound := readFrom?_lt (readFrom?_bits h 0)
  rwa [Nat.zero_add, Nat.one_mul] at hbound

theorem eq_toBits_of_ofBits {text : String} {w : Word} (h : ofBits text = .ok w) :
    text = w.toBits := by
  obtain ⟨hlength, hbits, rfl⟩ := ofBits_eq_ok_iff.mp h
  have hlist : text.toList.length = 32 := String.length_toList.trans hlength
  have hne : text.toList ≠ [] := List.ne_nil_of_length_pos (by rw [hlist]; decide)
  have hvalue : (BitVec.ofNat 32 (bitsValue text.toList)).toNat = bitsValue text.toList := by
    rw [BitVec.toNat_ofNat, Nat.mod_eq_of_lt (hlist ▸ bitsValue_lt hbits)]
  apply String.toList_injective
  rw [toList_toBits, hvalue, ← hlist]
  exact eq_padded (by decide) (by decide) hne (readFrom?_bits hbits 0)

/-! ## Shifting bits into a register -/

/-- Shifts a bit into a register from the right. Any other character stops the work. -/
def shiftIn (register : Word) : Char × Nat → Except Error Word
  | ('0', _) => .ok (register <<< 1)
  | ('1', _) => .ok (register <<< 1 ||| 1#32)
  | (c, position) => .error (.bitCharacter c position)

theorem shiftLeft_ofNat (n : Nat) : BitVec.ofNat 32 n <<< 1 = BitVec.ofNat 32 (n <<< 1) := by
  apply BitVec.eq_of_toNat_eq
  simp [Nat.shiftLeft_eq]

/-- A bit doubles the number in the register and adds to it, both modulo `2 ^ 32`. -/
theorem shiftIn_bit {c : Char} (h : c = '0' ∨ c = '1') (n position : Nat) :
    shiftIn (BitVec.ofNat 32 n) (c, position) =
      .ok (BitVec.ofNat 32 (2 * n + if c = '1' then 1 else 0)) := by
  rcases h with rfl | rfl
  · show Except.ok (BitVec.ofNat 32 n <<< 1) = .ok (BitVec.ofNat 32 (2 * n))
    rw [shiftLeft_ofNat, Nat.shiftLeft_eq, Nat.pow_one, Nat.mul_comm]
  · show Except.ok (BitVec.ofNat 32 n <<< 1 ||| 1#32) = .ok (BitVec.ofNat 32 (2 * n + 1))
    rw [shiftLeft_ofNat, ← BitVec.ofNat_or, ← Nat.shiftLeft_add_eq_or_of_lt (by decide),
      Nat.shiftLeft_eq, Nat.pow_one, Nat.mul_comm]

theorem shiftIn_nonBit {c : Char} (h : ¬(c = '0' ∨ c = '1')) (register : Word) (position : Nat) :
    shiftIn register (c, position) = .error (.bitCharacter c position) := by
  rw [not_or] at h
  rw [shiftIn.eq_3]
  · exact fun hc => h.1 hc
  · exact fun hc => h.2 hc

/-- A run of the register stops at the first character that is no bit, and without one it holds
the number of the bits. -/
theorem foldlM_shiftIn (cs : List Char) (n start : Nat) :
    (cs.zipIdx start).foldlM shiftIn (BitVec.ofNat 32 n) =
      match nonBit? (cs.zipIdx start) with
      | some (c, position) => .error (.bitCharacter c position)
      | none => .ok (BitVec.ofNat 32
          (cs.foldl (fun n c => 2 * n + if c = '1' then 1 else 0) n)) := by
  induction cs generalizing n start with
  | nil => rfl
  | cons c rest ih =>
      rw [List.zipIdx_cons, List.foldlM_cons, nonBit?]
      by_cases hc : c = '0' ∨ c = '1'
      · rw [shiftIn_bit hc, List.find?_cons_of_neg (by simpa [or_iff_not_imp_left] using hc)]
        exact ih _ _
      · rw [shiftIn_nonBit hc, List.find?_cons_of_pos (by simpa [or_iff_not_imp_left] using hc)]
        rfl

theorem ofBits_eq_foldlM {text : String} (h : text.length = 32) :
    ofBits text = text.toList.zipIdx.foldlM shiftIn 0#32 := by
  rw [ofBits_of_length h]
  exact (foldlM_shiftIn text.toList 0 0).symm

/-- Reading a text of bits and writing a word in bits undo each other, and what is no word is
refused for one exact reason. A text reads as a word only if it is that word in 32 binary digits.
Every other text is refused for its length if that is not 32, whatever it holds, and else for its
first character that is no bit, at the index of that character. A text of 32 characters may as well
be shifted into a register of 32 bits, one by one. -/
theorem ofBits_inverts_toBits (text : String) :
    (∀ w, ofBits text = .ok w ↔ text = toBits w) ∧
    ((∀ w, text ≠ toBits w) →
      (text.length ≠ 32 → ofBits text = .error (.wordLength text.length)) ∧
      (text.length = 32 → ∃ c position, FirstNonBit text.toList c position ∧
        ofBits text = .error (.bitCharacter c position))) ∧
    (text.length = 32 → ofBits text = text.toList.zipIdx.foldlM shiftIn 0#32) := by
  refine ⟨fun w => ⟨eq_toBits_of_ofBits, ?_⟩, fun hword => ⟨ofBits_of_length_ne, ?_⟩,
    ofBits_eq_foldlM⟩
  · rintro rfl
    exact ofBits_toBits w
  · intro hlength
    have heq := ofBits_of_length hlength
    cases hfirst : nonBit? text.toList.zipIdx with
    | none =>
        rw [hfirst] at heq
        exact absurd (eq_toBits_of_ofBits heq) (hword _)
    | some pair =>
        rw [hfirst] at heq
        exact ⟨pair.1, pair.2, firstNonBit_of_nonBit? hfirst, heq⟩

/-- A text too short, and one of 32 characters in 33 bytes whose first character is no bit. -/
theorem ofBits_inverts_toBits_accent :
    let text := "é0000000000000000000000000000000"
    ((∀ w, text ≠ toBits w) ∧ text.length = 32 ∧ ofBits text = .error (.bitCharacter 'é' 0)) ∧
    (∀ w, "1x" ≠ toBits w) ∧ ofBits "1x" = .error (.wordLength 2) := by
  intro text
  have hlength : text.length = 32 := by decide +kernel
  have hword : ∀ w, text ≠ toBits w := by
    intro w hw
    have hmem : 'é' ∈ w.toBits.toList := hw ▸ (by decide +kernel : 'é' ∈ text.toList)
    rw [toList_toBits] at hmem
    exact absurd (mem_padded_two hmem) (by decide)
  have hshort : ∀ w, "1x" ≠ toBits w := by
    intro w hw
    have hlength := length_toBits w
    rw [← hw] at hlength
    exact absurd hlength (by decide +kernel)
  obtain ⟨c, position, hfirst, heq⟩ := ((ofBits_inverts_toBits text).2.1 hword).2 hlength
  have hposition : position = 0 := by
    by_contra hne
    have hbit := hfirst.bits_before 0 (Nat.pos_of_ne_zero hne)
    revert hbit
    decide +kernel
  subst hposition
  have hfound : text.toList[0]? = some 'é' := by decide +kernel
  obtain rfl : 'é' = c := Option.some_inj.mp (hfound.symm.trans hfirst.found)
  exact ⟨⟨hword, hlength, heq⟩, hshort,
    ((ofBits_inverts_toBits "1x").2.1 hshort).1 (by decide +kernel)⟩

end Word

end MipsWords
