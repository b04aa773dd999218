import MipsWords.Proofs.Decoding

/-!
# A field is where its layout puts it

A field can be taken from a word in two ways: by its own accessor, which knows a
fixed place, or by a layout, which adds up widths until it meets the name. For
every layout with such a field both give the number of the same bits, counted
from the left, whatever format the word itself has.

A layout is read in natural numbers here, and a machine would read it in words
of 32 bits, where a sum can be too large, a difference negative and a shift too
wide. `Checked` does each step in such words and says so if there is no result.
The widths of a layout make 32, so every place ends inside the word, and no field
is without a bit, so no shift is as wide as the word: there always is a result,
and it is the same.
-/

namespace MipsWords

/-! ## Bits from the left -/

/-- The number that the bits of a word from `start` up to `stop` stand for, counted from the most
significant one. -/
def Word.bitsBetween (w : Word) (start stop : Nat) : Nat :=
  (List.range' start (stop - start)).foldl (fun n i => 2 * n + (w.getMsbD i).toNat) 0

/-- One bit more on the right doubles a number and adds the bit. -/
theorem Word.bitsBetween_succ (w : Word) (start count : Nat) :
    w.bitsBetween start (start + (count + 1)) =
      2 * w.bitsBetween start (start + count) + (w.getMsbD (start + count)).toNat := by
  rw [bitsBetween, bitsBetween, Nat.add_sub_cancel_left, Nat.add_sub_cancel_left,
    List.range'_1_concat, List.foldl_append]
  rfl

theorem Word.toNat_getMsbD {w : Word} {i : Nat} (h : i < 32) :
    (w.getMsbD i).toNat = (w.toNat >>> (31 - i)) % 2 := by
  rw [BitVec.getMsbD_eq_getLsbD, decide_eq_true h, Bool.true_and, BitVec.getLsbD,
    Nat.toNat_testBit, Nat.shiftRight_eq_div_pow]

theorem Word.bitsBetween_eq (w : Word) {start count : Nat} (h : start + count ≤ 32) :
    w.bitsBetween start (start + count) =
      (w.toNat >>> (32 - (start + count))) % 2 ^ count := by
  induction count with
  | zero => rw [bitsBetween, Nat.add_sub_cancel_left, Nat.pow_zero, Nat.mod_one]; rfl
  | succ count ih =>
      have hshift : 32 - (start + count) = 31 - (start + count) + 1 := by omega
      have hlast : 32 - (start + (count + 1)) = 31 - (start + count) := by omega
      rw [bitsBetween_succ, ih (by omega), toNat_getMsbD (by omega), hshift, hlast,
        Nat.shiftRight_succ, Nat.pow_succ', Nat.mod_mul, Nat.add_comm]

/-! ## The place of a field -/

namespace Format

/-- A field of a format has bits, and they end inside the word. -/
theorem exists_place {f : Format} {name : FieldName} (h : f.has name = true) :
    ∃ start width, ⟨name, width⟩ ∈ f.fields ∧ 0 < width ∧ start + width ≤ 32 ∧
      f.range? name = some (start, start + width) := by
  obtain ⟨field, hfield, hname⟩ := List.any_eq_true.mp h
  obtain rfl : field.name = name := by simpa using hname
  obtain ⟨before, after, hf⟩ := List.append_of_mem hfield
  have hbits := f.bits_fields
  rw [hf, bits_append, bits] at hbits
  exact ⟨bits before, field.width, hfield, f.width_pos field hfield, by omega, range?_eq hf⟩

theorem extract?_eq_none_iff {f : Format} {name : FieldName} (w : Word) :
    f.extract? w name = none ↔ f.has name = false := by
  cases h : f.has name with
  | false => exact iff_of_true (extract?_eq_none h w) rfl
  | true =>
      rw [extract?_eq_field h]
      exact iff_of_false nofun nofun

end Format

/-! ## Fixed places -/

/-- The bits that a field of a given name has, by a fixed shift and a fixed mask. -/
def Word.masked (w : Word) : FieldName → Word
  | .op => w >>> 26 &&& 0x3F#32
  | .rs => w >>> 21 &&& 0x1F#32
  | .rt => w >>> 16 &&& 0x1F#32
  | .rd => w >>> 11 &&& 0x1F#32
  | .shamt => w >>> 6 &&& 0x1F#32
  | .func => w &&& 0x3F#32
  | .immediate => w &&& 0xFFFF#32
  | .target => w &&& 0x03FFFFFF#32

theorem toNat_and_mask (w : Word) {n : Nat} (h : n ≤ 32) :
    (w &&& BitVec.ofNat 32 (2 ^ n - 1)).toNat = w.toNat % 2 ^ n := by
  have hlt : 2 ^ n - 1 < 2 ^ 32 := by
    have := Nat.pow_le_pow_right (n := 2) (by decide) h
    have := Nat.two_pow_pos n
    omega
  rw [BitVec.toNat_and, BitVec.toNat_ofNat, Nat.mod_eq_of_lt hlt, Nat.and_two_pow_sub_one_eq_mod]

theorem Word.toNat_masked (w : Word) (name : FieldName) : (w.masked name).toNat = w.field name := by
  have hplace : ∀ k n : Nat, n ≤ 32 →
      (w >>> k &&& BitVec.ofNat 32 (2 ^ n - 1)).toNat = (w.extractLsb' k n).toNat := by
    intro k n hn
    rw [toNat_and_mask _ hn, BitVec.toNat_ushiftRight, BitVec.extractLsb'_toNat]
  have hlow : ∀ n : Nat, n ≤ 32 →
      (w &&& BitVec.ofNat 32 (2 ^ n - 1)).toNat = (w.extractLsb' 0 n).toNat := by
    intro n hn
    rw [toNat_and_mask _ hn, BitVec.extractLsb'_toNat, Nat.shiftRight_zero]
  cases name with
  | op => exact hplace 26 6 (by decide)
  | rs => exact hplace 21 5 (by decide)
  | rt => exact hplace 16 5 (by decide)
  | rd => exact hplace 11 5 (by decide)
  | shamt => exact hplace 6 5 (by decide)
  | func => exact hlow 6 (by decide)
  | immediate => exact hlow 16 (by decide)
  | target => exact hlow 26 (by decide)

/-! ## Arithmetic in 32 bits -/

/-- What has no result in 32 bits: a sum that is too large, a difference below zero, a shift by the
whole width or more. -/
inductive Overflow where
  | sum | difference | shift
  deriving DecidableEq, Repr

namespace Checked

/-- The sum, if it is a word. -/
def add (a b : Word) : Except Overflow Word :=
  if a.toNat + b.toNat < 2 ^ 32 then .ok (a + b) else .error .sum

/-- The difference, if it is not negative. -/
def sub (a b : Word) : Except Overflow Word := if b ≤ a then .ok (a - b) else .error .difference

/-- The word moved to the left, by less than its width. -/
def shiftLeft (a b : Word) : Except Overflow Word :=
  if b < 32#32 then .ok (a <<< b) else .error .shift

/-- The word moved to the right, by less than its width. -/
def shiftRight (a b : Word) : Except Overflow Word :=
  if b < 32#32 then .ok (a >>> b) else .error .shift

/-- The word with the last `width` bits set. -/
def mask (width : Word) : Except Overflow Word :=
  if width = 32#32 then .ok (BitVec.allOnes 32) else do sub (← shiftLeft 1#32 width) 1#32

/-- The place of a field among those that begin at bit `start` from the left. There is none if the
fields in front of it make too large a sum. -/
def rangeFrom? (name : FieldName) : Word → List Field → Option (Word × Word)
  | _, [] => none
  | start, field :: rest =>
    (add start (BitVec.ofNat 32 field.width)).toOption.bind fun stop =>
      if field.name = name then some (start, stop) else rangeFrom? name stop rest

/-- The value of a field of the word, taken from its place in the layout. There is none if the
place ends past the last bit. -/
def extract (f : Format) (w : Word) (name : FieldName) : Except Overflow (Option Word) :=
  match rangeFrom? name 0#32 f.fields with
  | none => .ok none
  | some (start, stop) => do
    let width ← sub stop start
    match (sub 32#32 stop).toOption with
    | none => return none
    | some shift =>
      let mask ← mask width
      let bits ← shiftRight w shift
      return some (bits &&& mask)

variable {a b : Nat}

theorem ofNat_le_iff (ha : a < 2 ^ 32) (hb : b < 2 ^ 32) :
    BitVec.ofNat 32 b ≤ BitVec.ofNat 32 a ↔ b ≤ a := by
  rw [BitVec.le_def, BitVec.toNat_ofNat, BitVec.toNat_ofNat, Nat.mod_eq_of_lt ha,
    Nat.mod_eq_of_lt hb]

theorem add_ofNat (h : a + b < 2 ^ 32) :
    add (BitVec.ofNat 32 a) (BitVec.ofNat 32 b) = .ok (BitVec.ofNat 32 (a + b)) := by
  rw [add, BitVec.toNat_ofNat, BitVec.toNat_ofNat, Nat.mod_eq_of_lt (by omega),
    Nat.mod_eq_of_lt (by omega), if_pos h, BitVec.ofNat_add]

theorem sub_ofNat (ha : a < 2 ^ 32) (h : b ≤ a) :
    sub (BitVec.ofNat 32 a) (BitVec.ofNat 32 b) = .ok (BitVec.ofNat 32 (a - b)) := by
  rw [sub, if_pos ((ofNat_le_iff ha (by omega)).mpr h), BitVec.ofNat_sub_ofNat_of_le a b (by omega) h]

theorem ofNat_lt_width (h : b < 32) : BitVec.ofNat 32 b < 32#32 := by
  rw [BitVec.lt_def, BitVec.toNat_ofNat, BitVec.toNat_ofNat, Nat.mod_eq_of_lt (by omega)]
  exact h

theorem shiftLeft_ofNat (h : b < 32) :
    shiftLeft 1#32 (BitVec.ofNat 32 b) = .ok (BitVec.ofNat 32 (2 ^ b)) := by
  have hword : 1#32 <<< BitVec.ofNat 32 b = BitVec.ofNat 32 (2 ^ b) := by
    apply BitVec.eq_of_toNat_eq
    rw [BitVec.shiftLeft_eq', BitVec.toNat_shiftLeft, BitVec.toNat_ofNat, BitVec.toNat_ofNat,
      BitVec.toNat_ofNat, Nat.mod_eq_of_lt (a := b) (by omega), Nat.shiftLeft_eq]
    simp
  rw [shiftLeft, if_pos (ofNat_lt_width h), hword]

theorem shiftRight_ofNat (w : Word) (h : b < 32) :
    shiftRight w (BitVec.ofNat 32 b) = .ok (w >>> b) := by
  rw [shiftRight, if_pos (ofNat_lt_width h), BitVec.ushiftRight_eq', BitVec.toNat_ofNat,
    Nat.mod_eq_of_lt (by omega)]

theorem mask_ofNat {width : Nat} (h : width ≤ 32) :
    mask (BitVec.ofNat 32 width) = .ok (BitVec.ofNat 32 (2 ^ width - 1)) := by
  rcases Nat.lt_or_eq_of_le h with hlt | rfl
  · have hne : BitVec.ofNat 32 width ≠ 32#32 := (BitVec.ne_of_lt (ofNat_lt_width hlt))
    have hpow : 2 ^ width < 2 ^ 32 := Nat.pow_lt_pow_right (by decide) hlt
    rw [mask, if_neg hne, shiftLeft_ofNat hlt]
    exact sub_ofNat hpow (Nat.two_pow_pos width)
  · rfl

/-- Adding up the widths of a layout goes as in natural numbers, if they do not exceed the range of
a word. -/
theorem rangeFrom?_ofNat (name : FieldName) {start : Nat} {fields : List Field}
    (h : start + bits fields < 2 ^ 32) :
    rangeFrom? name (BitVec.ofNat 32 start) fields = (Format.rangeFrom? name start fields).map
      fun (start, stop) => (BitVec.ofNat 32 start, BitVec.ofNat 32 stop) := by
  induction fields generalizing start with
  | nil => rfl
  | cons field rest ih =>
      rw [bits] at h
      rw [rangeFrom?, Format.rangeFrom?, add_ofNat (by omega)]
      show (if field.name = name then _ else _) = _
      split
      · rfl
      · exact ih (by omega)

/-- The value of a place inside the word. -/
theorem extract_of_place {f : Format} {name : FieldName} {start width : Nat} (hwidth : 0 < width)
    (hstop : start + width ≤ 32) (h : f.range? name = some (start, start + width)) (w : Word) :
    ∃ value, extract f w name = .ok (some value) ∧
      value.toNat = (w.toNat >>> (32 - (start + width))) % 2 ^ width := by
  have hrange : rangeFrom? name 0#32 f.fields =
      some (BitVec.ofNat 32 start, BitVec.ofNat 32 (start + width)) := by
    rw [rangeFrom?_ofNat name (by rw [f.bits_fields]; decide)]
    exact congrArg _ h
  have hlength : sub (BitVec.ofNat 32 (start + width)) (BitVec.ofNat 32 start) =
      .ok (BitVec.ofNat 32 width) := by
    rw [sub_ofNat (by omega) (by omega), Nat.add_sub_cancel_left]
  have hshift : sub 32#32 (BitVec.ofNat 32 (start + width)) =
      .ok (BitVec.ofNat 32 (32 - (start + width))) := sub_ofNat (by decide) hstop
  refine ⟨w >>> (32 - (start + width)) &&& BitVec.ofNat 32 (2 ^ width - 1), ?_, ?_⟩
  · rw [extract, hrange]
    simp only [hlength, hshift]
    show (do let mask ← mask _; let bits ← shiftRight w _; return some (bits &&& mask)) = _
    rw [mask_ofNat (by omega), shiftRight_ofNat w (by omega)]
    rfl
  · rw [toNat_and_mask _ (by omega), BitVec.toNat_ushiftRight]

theorem extract_eq (f : Format) (w : Word) (name : FieldName) :
    ∃ value, extract f w name = .ok value ∧ value.map BitVec.toNat = f.extract? w name := by
  cases h : f.has name with
  | false =>
      refine ⟨none, ?_, (Format.extract?_eq_none h w).symm⟩
      have hrange : rangeFrom? name 0#32 f.fields = none := by
        rw [rangeFrom?_ofNat name (by rw [f.bits_fields]; decide)]
        exact congrArg _ (Format.range?_eq_none h)
      rw [extract, hrange]
  | true =>
      obtain ⟨start, width, -, hwidth, hstop, hrange⟩ := Format.exists_place h
      obtain ⟨value, hvalue, hnat⟩ := extract_of_place hwidth hstop hrange w
      refine ⟨some value, hvalue, ?_⟩
      rw [Format.extract?_of_range? hrange hstop, Option.map_some, hnat]

end Checked

/-- A layout takes a field from where it lies. Whatever the format of a word, a layout gives nothing
for a name that it does not have, and for any other the value of the word's accessor of that name,
which is a fixed shift and mask: the number of the bits in the place of the field, counted from the
left. The fields of a decoded word are what its own layout gives. In words of 32 bits none of this
goes out of range. -/
theorem extraction_by_place (f : Format) (w : Word) (name : FieldName) :
    (f.extract? w name = none ↔ f.has name = false) ∧
    (f.has name = true → ∃ start width, ⟨name, width⟩ ∈ f.fields ∧
      f.range? name = some (start, start + width) ∧
      f.extract? w name = some (w.field name) ∧
      w.field name = w.bitsBetween start (start + width) ∧ w.field name < 2 ^ width) ∧
    w.field name = (w.masked name).toNat ∧
    (decode w).field? name = (Format.ofWord w).extract? w name ∧
    ∃ value, Checked.extract f w name = .ok value ∧ value.map BitVec.toNat = f.extract? w name := by
  refine ⟨Format.extract?_eq_none_iff w, fun h => ?_, (w.toNat_masked name).symm,
    Format.find?_split _ w name, Checked.extract_eq f w name⟩
  obtain ⟨start, width, hfield, -, hstop, hrange⟩ := Format.exists_place h
  have hextract := Format.extract?_eq_field h w
  have hvalue : w.field name = (w.toNat >>> (32 - (start + width))) % 2 ^ width := by
    rw [← Option.some_inj, ← hextract, Format.extract?_of_range? hrange hstop]
  refine ⟨start, width, hfield, hrange, hextract, ?_, ?_⟩
  · rw [hvalue, Word.bitsBetween_eq w hstop]
  · rw [hvalue]
    exact Nat.mod_lt _ (Nat.two_pow_pos width)

/-- The immediate of an addition of registers, which has none in its own format. -/
theorem extraction_by_place_foreign :
    Format.i.has .immediate = true ∧ Format.i.extract? 0x012A4020#32 .immediate = some 0x4020 ∧
      Checked.extract .i 0x012A4020#32 .immediate = .ok (some 0x4020#32) ∧
      (decode 0x012A4020#32).field? .immediate = none := by
  have hhas : Format.i.has .immediate = true := rfl
  obtain ⟨-, hplace, hmasked, hdecode, value, hvalue, hnat⟩ :=
    extraction_by_place .i 0x012A4020#32 .immediate
  obtain ⟨-, -, -, -, hextract, -⟩ := hplace hhas
  rw [hmasked] at hextract
  rw [hextract] at hnat
  obtain ⟨word, rfl, hword⟩ := Option.map_eq_some_iff.mp hnat
  obtain rfl : word = 0x4020#32 := BitVec.eq_of_toNat_eq hword
  exact ⟨hhas, hextract, hvalue, hdecode.trans (by decide)⟩

end MipsWords
