import Mathlib
import MipsWords.Decoded

/-!
# The fields of a layout tile the word

A layout names its fields from the left, and the place of a field is found by
adding up the widths before it. Read from the right the same place is simpler:
a field is shifted by the widths behind it, and `slices` is that reading.

Two facts about `slices` carry everything else. Joining the slices of a number
gives the number back (`foldl_slices`), and the slices of joined values are the
values (`slices_foldl`). Both are inductions over the layout whose invariant is
that the fields joined so far are the number without the bits still to come, so
neither looks at a particular layout.

The four layouts enter with two facts that are checked by looking: no name comes
twice, and the widths make 32.
-/

namespace MipsWords

/-! ## Shifting and joining -/

theorem shiftLeft_or_shiftRight {value width : Nat} (n : Nat) (h : value < 2 ^ width) :
    (n <<< width ||| value) >>> width = n := by
  rw [← Nat.shiftLeft_add_eq_or_of_lt h, Nat.shiftLeft_eq, Nat.shiftRight_eq_div_pow,
    Nat.mul_comm, Nat.mul_add_div (Nat.two_pow_pos width), Nat.div_eq_of_lt h, Nat.add_zero]

theorem shiftLeft_or_mod {value width : Nat} (n : Nat) (h : value < 2 ^ width) :
    (n <<< width ||| value) % 2 ^ width = value := by
  rw [← Nat.shiftLeft_add_eq_or_of_lt h, Nat.shiftLeft_eq, Nat.mul_comm, Nat.mul_add_mod,
    Nat.mod_eq_of_lt h]

theorem shiftRight_or_mod (n width : Nat) : (n >>> width) <<< width ||| n % 2 ^ width = n := by
  rw [← Nat.shiftLeft_add_eq_or_of_lt (Nat.mod_lt n (Nat.two_pow_pos width)), Nat.shiftLeft_eq,
    Nat.shiftRight_eq_div_pow, Nat.div_add_mod']

/-! ## Slices -/

/-- The number of bits that fields take together. -/
def bits : List Field → Nat
  | [] => 0
  | field :: rest => field.width + bits rest

/-- The values of fields that end with the last bit of a number. -/
def slices (n : Nat) : List Field → List Nat
  | [] => []
  | field :: rest => (n >>> bits rest) % 2 ^ field.width :: slices n rest

theorem bits_append (before after : List Field) :
    bits (before ++ after) = bits before + bits after := by
  induction before with
  | nil => rw [List.nil_append, bits, Nat.zero_add]
  | cons field rest ih => rw [List.cons_append, bits, bits, ih, Nat.add_assoc]

theorem length_slices (n : Nat) (fields : List Field) : (slices n fields).length = fields.length := by
  induction fields with
  | nil => rfl
  | cons field rest ih => rw [slices, List.length_cons, List.length_cons, ih]

/-- Values for fields, none of them too large for its width. -/
def Fits (fields : List Field) (values : List Nat) : Prop :=
  List.Forall₂ (fun field value => value < 2 ^ field.width) fields values

theorem fits_slices (n : Nat) (fields : List Field) : Fits fields (slices n fields) := by
  induction fields with
  | nil => exact .nil
  | cons field rest ih => exact .cons (Nat.mod_lt _ (Nat.two_pow_pos _)) ih

/-- Joining the slices of a number onto the bits in front of them gives the number. -/
theorem foldl_slices (n : Nat) (fields : List Field) :
    ((fields.map Field.width).zip (slices n fields)).foldl
      (fun n (width, value) => n <<< width ||| value) (n >>> bits fields) = n := by
  induction fields with
  | nil => rfl
  | cons field rest ih =>
      rw [List.map_cons, slices, List.zip_cons_cons, List.foldl_cons, bits, Nat.add_comm,
        Nat.shiftRight_add]
      simp only []
      rw [shiftRight_or_mod]
      exact ih

/-- Values that fit are the slices of what they are joined to, and in front of them stays what
they were joined onto. -/
theorem slices_foldl {fields : List Field} {values : List Nat} (h : Fits fields values) :
    ∀ start : Nat,
      let joined := ((fields.map Field.width).zip values).foldl
        (fun n (width, value) => n <<< width ||| value) start
      joined >>> bits fields = start ∧ slices joined fields = values := by
  induction h with
  | nil => exact fun start => ⟨rfl, rfl⟩
  | cons hv _ ih =>
      intro start
      obtain ⟨hfront, hrest⟩ := ih (start <<< _ ||| _)
      refine ⟨?_, ?_⟩
      · rw [bits, Nat.add_comm, Nat.shiftRight_add]
        exact (congrArg (· >>> _) hfront).trans (shiftLeft_or_shiftRight start hv)
      · rw [slices]
        congr 1
        exact (congrArg (· % _) hfront).trans (shiftLeft_or_mod start hv)

/-! ## Places -/

/-- A field is placed behind the fields in front of it, if none of those has its name. -/
theorem rangeFrom?_append {before after : List Field} {field : Field}
    (h : ∀ other ∈ before, other.name ≠ field.name) (start : Nat) :
    Format.rangeFrom? field.name start (before ++ field :: after) =
      some (start + bits before, start + bits before + field.width) := by
  induction before generalizing start with
  | nil => rw [List.nil_append, Format.rangeFrom?, if_pos rfl, bits, Nat.add_zero]
  | cons other rest ih =>
      have hother : other.name ≠ field.name := h other (List.mem_cons_self ..)
      rw [List.cons_append, Format.rangeFrom?, if_neg hother,
        ih (fun o ho => h o (List.mem_cons_of_mem _ ho)), bits, Nat.add_assoc start]

theorem rangeFrom?_eq_none {name : FieldName} {fields : List Field}
    (h : ∀ field ∈ fields, field.name ≠ name) (start : Nat) :
    Format.rangeFrom? name start fields = none := by
  induction fields generalizing start with
  | nil => rfl
  | cons field rest ih =>
      rw [Format.rangeFrom?, if_neg (h field (List.mem_cons_self ..)),
        ih fun o ho => h o (List.mem_cons_of_mem _ ho)]

namespace Format

theorem bits_fields (f : Format) : bits f.fields = 32 := by
  cases f <;> rfl

theorem width_pos (f : Format) : ∀ field ∈ f.fields, 0 < field.width := by
  cases f <;> decide

theorem nodup_names (f : Format) : (f.fields.map Field.name).Nodup := by
  cases f <;> decide

/-- A field of a format is placed behind the widths of the fields in front of it. -/
theorem range?_eq {f : Format} {before after : List Field} {field : Field}
    (hf : f.fields = before ++ field :: after) :
    f.range? field.name = some (bits before, bits before + field.width) := by
  have hnames := f.nodup_names
  rw [hf, List.map_append, List.map_cons] at hnames
  have hbefore : ∀ other ∈ before, other.name ≠ field.name := by
    intro other hother heq
    have hmem : field.name ∈ before.map Field.name := heq ▸ List.mem_map_of_mem hother
    exact (List.nodup_append.mp hnames).2.2 _ hmem _ (List.mem_cons_self ..) rfl
  rw [range?, hf, rangeFrom?_append hbefore, Nat.zero_add]

theorem range?_eq_none {f : Format} {name : FieldName} (h : f.has name = false) :
    f.range? name = none := by
  have hnone : ∀ field ∈ f.fields, field.name ≠ name := by simpa [has] using h
  rw [range?, rangeFrom?_eq_none hnone]

theorem extract?_of_range? {f : Format} {name : FieldName} {start width : Nat}
    (h : f.range? name = some (start, start + width)) (hstop : start + width ≤ 32) (w : Word) :
    f.extract? w name = some ((w.toNat >>> (32 - (start + width))) % 2 ^ width) := by
  rw [extract?, h, Option.bind_some]
  simp only []
  rw [if_pos hstop, Nat.add_sub_cancel_left]
  rfl

/-- A field of a format is shifted by the widths of the fields behind it. -/
theorem extract?_eq_slice {f : Format} {before after : List Field} {field : Field}
    (hf : f.fields = before ++ field :: after) (w : Word) :
    f.extract? w field.name = some ((w.toNat >>> bits after) % 2 ^ field.width) := by
  have hbits := f.bits_fields
  rw [hf, bits_append, bits] at hbits
  have hstop : bits before + field.width ≤ 32 := by omega
  have hshift : 32 - (bits before + field.width) = bits after := by omega
  rw [extract?_of_range? (range?_eq hf) hstop, hshift]

theorem extract?_eq_none {f : Format} {name : FieldName} (h : f.has name = false) (w : Word) :
    f.extract? w name = none := by
  rw [extract?, range?_eq_none h, Option.bind_none]

/-! ## Splitting a word -/

/-- The fields of a format with the values they have in a word, whatever the word's own format. -/
def split (f : Format) (w : Word) : List (FieldName × Nat) :=
  f.fields.filterMap fun field => (f.extract? w field.name).map fun value => (field.name, value)

theorem decode_fields (w : Word) : (decode w).fields = (ofWord w).split w := rfl

theorem split_eq_zip (f : Format) (w : Word) :
    f.split w = (f.fields.map Field.name).zip (slices w.toNat f.fields) := by
  -- The induction is over the fields behind those already split.
  suffices ∀ after before, f.fields = before ++ after →
      (after.filterMap fun field => (f.extract? w field.name).map fun value => (field.name, value)) =
        (after.map Field.name).zip (slices w.toNat after) from this f.fields [] rfl
  intro after
  induction after with
  | nil => intro before _; rfl
  | cons field rest ih =>
      intro before hf
      rw [List.filterMap_cons, extract?_eq_slice hf, List.map_cons, slices, List.zip_cons_cons,
        ih (before ++ [field]) (by rw [hf, List.append_assoc, List.singleton_append])]
      rfl

theorem names_split (f : Format) (w : Word) : (f.split w).map (·.1) = f.fields.map Field.name := by
  rw [split_eq_zip, List.map_fst_zip]
  rw [length_slices, List.length_map]

theorem values_split (f : Format) (w : Word) : (f.split w).map (·.2) = slices w.toNat f.fields := by
  rw [split_eq_zip, List.map_snd_zip]
  rw [length_slices, List.length_map]

/-- The fields of a word are what is extracted from it. -/
theorem mem_split {f : Format} {w : Word} {name : FieldName} {value : Nat} :
    (name, value) ∈ f.split w ↔ f.extract? w name = some value := by
  constructor
  · intro h
    obtain ⟨field, _, hfield⟩ := List.mem_filterMap.mp h
    obtain ⟨v, hv, hpair⟩ := Option.map_eq_some_iff.mp hfield
    obtain ⟨rfl, rfl⟩ := Prod.mk.inj hpair
    exact hv
  · intro h
    cases hhas : f.has name with
    | false => rw [extract?_eq_none hhas] at h; cases h
    | true =>
        obtain ⟨field, hfield, hname⟩ := List.any_eq_true.mp hhas
        obtain rfl : field.name = name := by simpa using hname
        exact List.mem_filterMap.mpr ⟨field, hfield, by rw [h]; rfl⟩

theorem find?_split (f : Format) (w : Word) (name : FieldName) :
    ((f.split w).find? (·.1 == name)).map (·.2) = f.extract? w name := by
  cases hfind : (f.split w).find? (·.1 == name) with
  | some pair =>
      obtain rfl : pair.1 = name := by simpa using List.find?_some hfind
      rw [mem_split.mp (List.mem_of_find?_eq_some hfind), Option.map_some]
  | none =>
      cases hextract : f.extract? w name with
      | none => rfl
      | some value =>
          have := List.find?_eq_none.mp hfind _ (mem_split.mpr hextract)
          exact absurd (beq_self_eq_true name) this

end Format

end MipsWords
