import MipsWords.Proofs.Layout

/-!
# Words and well-formed field lists are the same thing

A list of fields is well formed for a format if it has the format's names in
their order, values that fit, and an opcode and function code that belong to the
format. Decoding a word gives such a list, and joining such a list gives a word
that decodes to it, so `decode` is a bijection onto the well-formed lists.

The layouts alone already make splitting and joining inverse to each other, for
every format and every word. What remains is that the selecting bits decide the
format: they are read off the split fields, so what the other fields hold cannot
come into it.
-/

namespace MipsWords

namespace Format

/-- Where a format has a field, it lies at the place of the word's own accessor. -/
theorem extract?_eq_field {f : Format} {name : FieldName} (h : f.has name = true) (w : Word) :
    f.extract? w name = some (w.field name) := by
  cases f <;> cases name <;> cases h <;> rfl

theorem mem_split_iff_field {f : Format} {name : FieldName} (h : f.has name = true) (w : Word)
    (value : Nat) : (name, value) ∈ f.split w ↔ w.field name = value := by
  rw [mem_split, extract?_eq_field h, Option.some_inj]

/-! ## Well-formed lists -/

/-- The opcode and the function code among the fields belong to the format. -/
def Selects (f : Format) (fields : List (FieldName × Nat)) : Prop :=
  match f with
  | shift => (.op, 0) ∈ fields ∧ ∃ c ∈ [0, 2, 3, 4, 6, 7], (.func, c) ∈ fields
  | r => (.op, 0) ∈ fields ∧ ∃ c ∉ [0, 2, 3, 4, 6, 7], (.func, c) ∈ fields
  | j => ∃ c ∈ [2, 3], (.op, c) ∈ fields
  | i => ∃ c ∉ [0, 2, 3], (.op, c) ∈ fields

/-- Fields that a word of the format could have. -/
structure WellFormed (f : Format) (fields : List (FieldName × Nat)) : Prop where
  names : fields.map (·.1) = f.fields.map Field.name
  fits : Fits f.fields (fields.map (·.2))
  selects : f.Selects fields

/-- The number that the values of fields join to, each in the width the format gives it. -/
def join (f : Format) (fields : List (FieldName × Nat)) : Nat :=
  assemble ((f.fields.map Field.width).zip (fields.map (·.2)))

/-! ## Splitting and joining -/

theorem join_split (f : Format) (w : Word) : f.join (f.split w) = w.toNat := by
  have h := foldl_slices w.toNat f.fields
  have hfront : w.toNat >>> bits f.fields = 0 := by
    rw [bits_fields, Nat.shiftRight_eq_div_pow, Nat.div_eq_of_lt w.isLt]
  rw [hfront] at h
  rw [join, values_split]
  exact h

theorem join_lt {f : Format} {fields : List (FieldName × Nat)}
    (h : Fits f.fields (fields.map (·.2))) : f.join fields < 2 ^ 32 := by
  have hfront : f.join fields >>> bits f.fields = 0 := (slices_foldl h 0).1
  rw [bits_fields, Nat.shiftRight_eq_div_pow] at hfront
  exact Nat.lt_of_div_eq_zero (Nat.two_pow_pos 32) hfront

theorem split_join {f : Format} {fields : List (FieldName × Nat)}
    (hnames : fields.map (·.1) = f.fields.map Field.name)
    (hfits : Fits f.fields (fields.map (·.2))) :
    f.split (BitVec.ofNat 32 (f.join fields)) = fields := by
  have hslices : slices (f.join fields) f.fields = fields.map (·.2) := (slices_foldl hfits 0).2
  have hword : (BitVec.ofNat 32 (f.join fields)).toNat = f.join fields := by
    rw [BitVec.toNat_ofNat, Nat.mod_eq_of_lt (join_lt hfits)]
  rw [split_eq_zip, hword, hslices, ← hnames, ← List.unzip_fst, ← List.unzip_snd,
    List.zip_unzip]

/-! ## The selecting bits -/

/-- The format of a word is the one that the word's own bits select. -/
theorem selects_split_iff (f : Format) (w : Word) : f.Selects (f.split w) ↔ ofWord w = f := by
  have hop : ∀ value, (FieldName.op, value) ∈ f.split w ↔ w.opcode = value :=
    mem_split_iff_field (by cases f <;> rfl) w
  have hshift : w.function ∈ [0, 2, 3, 4, 6, 7] ↔ w.function ∈ shiftFunctions := by
    simp only [shiftFunctions, List.mem_cons, List.not_mem_nil, or_false]
    omega
  have hjump : w.opcode ∈ [2, 3] ↔ w.opcode ∈ jumpOpcodes := Iff.rfl
  have hspecial : specialOpcode ∉ jumpOpcodes := by decide
  have hother : w.opcode ∉ [0, 2, 3] ↔ w.opcode ≠ specialOpcode ∧ w.opcode ∉ jumpOpcodes := by
    rw [List.mem_cons, not_or]
    rfl
  cases f with
  | shift =>
      have hfunc : ∀ value, (FieldName.func, value) ∈ shift.split w ↔ w.function = value :=
        mem_split_iff_field rfl w
      simp only [Selects, hop, hfunc, exists_eq_right', hshift]
      rw [ofWord, specialOpcode]
      split_ifs <;> simp [*]
  | r =>
      have hfunc : ∀ value, (FieldName.func, value) ∈ r.split w ↔ w.function = value :=
        mem_split_iff_field rfl w
      simp only [Selects, hop, hfunc, exists_eq_right', hshift]
      rw [ofWord, specialOpcode]
      split_ifs <;> simp [*]
  | i =>
      simp only [Selects, hop, exists_eq_right', hother]
      rw [ofWord]
      split_ifs <;> simp [*]
  | j =>
      simp only [Selects, hop, exists_eq_right', hjump]
      rw [ofWord]
      split_ifs <;> simp [*]

theorem wellFormed_split (w : Word) : (ofWord w).WellFormed ((ofWord w).split w) where
  names := names_split _ w
  fits := values_split _ w ▸ fits_slices w.toNat _
  selects := (selects_split_iff _ w).mpr rfl

/-- A word joined from a well-formed list has the format of the list. -/
theorem ofWord_join {f : Format} {fields : List (FieldName × Nat)} (h : f.WellFormed fields) :
    ofWord (BitVec.ofNat 32 (f.join fields)) = f := by
  rw [← selects_split_iff, split_join h.names h.fits]
  exact h.selects

end Format

/-- Decoding takes the words one to one onto the well-formed field lists, and joining takes them
back. The fields of a word are well formed for its format and join to the word; fields that are
well formed for a format join to 32 bits, and the word of these bits has that format and exactly
these fields. -/
theorem decode_join_inverse :
    (∀ w : Word, (decode w).raw = w ∧ (decode w).format = Format.ofWord w ∧
      (Format.ofWord w).WellFormed (decode w).fields ∧
      (Format.ofWord w).join (decode w).fields = w.toNat) ∧
    (∀ (f : Format) (fields : List (FieldName × Nat)), f.WellFormed fields →
      f.join fields < 2 ^ 32 ∧
      Format.ofWord (BitVec.ofNat 32 (f.join fields)) = f ∧
      decode (BitVec.ofNat 32 (f.join fields)) =
        { raw := BitVec.ofNat 32 (f.join fields), format := f, fields := fields }) := by
  refine ⟨fun w => ⟨rfl, rfl, Format.wellFormed_split w, Format.join_split _ w⟩, ?_⟩
  intro f fields h
  have hformat := Format.ofWord_join h
  refine ⟨Format.join_lt h.fits, hformat, ?_⟩
  have hfields : (decode (BitVec.ofNat 32 (f.join fields))).fields = fields := by
    rw [Format.decode_fields, hformat, Format.split_join h.names h.fits]
  calc decode (BitVec.ofNat 32 (f.join fields))
      = ⟨BitVec.ofNat 32 (f.join fields), Format.ofWord (BitVec.ofNat 32 (f.join fields)),
          (decode (BitVec.ofNat 32 (f.join fields))).fields⟩ := rfl
    _ = ⟨BitVec.ofNat 32 (f.join fields), f, fields⟩ := by rw [hformat, hfields]

/-- The fields of `add $t0, $t1, $t2` join to its word. -/
theorem decode_join_inverse_add :
    let fields : List (FieldName × Nat) :=
      [(.op, 0), (.rs, 9), (.rt, 10), (.rd, 8), (.shamt, 0), (.func, 32)]
    Format.r.WellFormed fields ∧ decode 0x012A4020#32 = ⟨0x012A4020#32, .r, fields⟩ := by
  have h : Format.r.WellFormed
      [(.op, 0), (.rs, 9), (.rt, 10), (.rd, 8), (.shamt, 0), (.func, 32)] := by
    refine ⟨rfl, ?_, ?_⟩
    · simp [Fits, Format.fields]
    · simp [Format.Selects]
  exact ⟨h, (decode_join_inverse.2 .r _ h).2.2⟩

end MipsWords
