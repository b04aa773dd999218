import MipsWords.Proofs.BinaryWords
import MipsWords.Proofs.Decoding

/-!
# A listing of fields loses nothing

A listing names the format and then each field, with its value in binary. No
name of a format holds a colon, no name of a field an equals sign, and no
numeral a blank, so each of these can be cut off where the mark behind it stands
first. What is cut off is the name of one format or one field, or the numeral of
one number, since a least width adds zeros and takes nothing away.

The listing goes on until the fields of the format or those of the decoded word
run out, and shows exactly the fields that it comes to. So the induction is over
the fields of the format, for any two lists of values beside them.

In the listing of a word the numerals are as long as the fields. Read from left
to right they are the bits of the word, because what has been read before a
field is the word without the bits of that field and those behind it.
-/

namespace MipsWords

/-! ## Names -/

theorem FieldName.text_injective {name name' : FieldName} (h : name.text = name'.text) :
    name = name' := by
  revert h
  cases name <;> cases name' <;> decide

theorem FieldName.equals_not_mem_text (name : FieldName) : '=' ∉ name.text.toList := by
  cases name <;> decide

theorem Format.name_injective {f f' : Format} (h : f.name = f'.name) : f = f' := by
  revert h
  cases f <;> cases f' <;> decide

theorem Format.colon_not_mem_name (f : Format) : ':' ∉ f.name.toList := by
  cases f <;> decide

/-! ## Cutting at a mark -/

/-- Texts that end at the first character that breaks a rule can be cut off. -/
theorem append_inj_of_takeWhile {p : Char → Bool} {xs xs' ys ys' : List Char}
    (h : ∀ c ∈ xs, p c = true) (h' : ∀ c ∈ xs', p c = true) (hys : ys.takeWhile p = [])
    (hys' : ys'.takeWhile p = []) (heq : xs ++ ys = xs' ++ ys') : xs = xs' ∧ ys = ys' := by
  have hfront : xs = xs' := by
    have htake := congrArg (List.takeWhile p) heq
    rwa [List.takeWhile_append_of_pos h, List.takeWhile_append_of_pos h', hys, hys',
      List.append_nil, List.append_nil] at htake
  subst hfront
  exact ⟨rfl, List.append_cancel_left heq⟩

/-- The text before the first place of a mark is determined, and so is what stands behind it. -/
theorem append_cons_inj {c : Char} {xs xs' ys ys' : List Char} (h : c ∉ xs) (h' : c ∉ xs')
    (heq : xs ++ c :: ys = xs' ++ c :: ys') : xs = xs' ∧ ys = ys' := by
  have hmark : ∀ zs : List Char, (c :: zs).takeWhile (· ≠ c) = [] := fun zs =>
    List.takeWhile_cons_of_neg (by simp)
  have hne : ∀ {zs : List Char}, c ∉ zs → ∀ d ∈ zs, decide (d ≠ c) = true :=
    fun hzs d hd => decide_eq_true fun hdc => hzs (hdc ▸ hd)
  obtain ⟨hfront, hrest⟩ := append_inj_of_takeWhile (hne h) (hne h') (hmark ys) (hmark ys') heq
  exact ⟨hfront, (List.cons.inj hrest).2⟩

/-! ## Numerals of slices -/

/-- Numerals as long as the slices of a number are read, behind the bits in front of them, as the
number. -/
theorem readFrom?_slices (n : Nat) {fields : List Field}
    (hwidth : ∀ field ∈ fields, 0 < field.width) :
    let digits := (List.zipWith (fun field value => Numeral.padded 2 field.width value) fields
      (slices n fields)).flatten
    Numeral.readFrom? 2 (n >>> bits fields) digits = some n ∧ digits.length = bits fields := by
  induction fields with
  | nil => exact ⟨rfl, rfl⟩
  | cons field rest ih =>
      obtain ⟨hread, hlength⟩ := ih fun f hf => hwidth f (List.mem_cons_of_mem _ hf)
      have hslice : (n >>> bits rest) % 2 ^ field.width < 2 ^ field.width :=
        Nat.mod_lt _ (Nat.two_pow_pos _)
      have hfield := Numeral.length_padded (b := 2) (by decide)
        (hwidth field (List.mem_cons_self ..)) hslice
      have hjoin : n >>> (bits rest + field.width) * 2 ^ field.width +
          (n >>> bits rest) % 2 ^ field.width = n >>> bits rest := by
        rw [Nat.shiftRight_add, Nat.shiftRight_eq_div_pow _ field.width, Nat.div_add_mod']
      refine ⟨?_, ?_⟩
      · rw [slices, List.zipWith_cons_cons, List.flatten_cons, Numeral.readFrom?_append,
          Numeral.readFrom?_eq_map, Numeral.readFrom?_padded (by decide) (by decide),
          Option.map_some, Option.bind_some, hfield, bits, Nat.add_comm field.width, hjoin]
        exact hread
      · rw [slices, List.zipWith_cons_cons, List.flatten_cons, List.length_append, hfield, hlength,
          bits]

/-- The numerals of the slices of a number make up its own. -/
theorem flatten_slices {n : Nat} {fields : List Field} (hwidth : ∀ field ∈ fields, 0 < field.width)
    (hbits : 0 < bits fields) (h : n < 2 ^ bits fields) :
    (List.zipWith (fun field value => Numeral.padded 2 field.width value) fields
      (slices n fields)).flatten = Numeral.padded 2 (bits fields) n := by
  obtain ⟨hread, hlength⟩ := readFrom?_slices n hwidth
  rw [Nat.shiftRight_eq_div_pow, Nat.div_eq_of_lt h] at hread
  have hne := List.ne_nil_of_length_pos (hlength ▸ hbits)
  rw [Numeral.eq_padded (by decide) (by decide) hne hread, hlength]

/-! ## Entries -/

namespace Decoded

/-- A field of a listing in characters. -/
def entry (field : Field) (pair : FieldName × Nat) : List Char :=
  ' ' :: (pair.1.text.toList ++ '=' :: Numeral.padded 2 field.width pair.2)

/-- The fields of a listing in characters. -/
def entries (fields : List Field) (pairs : List (FieldName × Nat)) : List Char :=
  (List.zipWith entry fields pairs).flatten

theorem entries_cons_cons (field : Field) (rest : List Field) (pair : FieldName × Nat)
    (pairs : List (FieldName × Nat)) :
    entries (field :: rest) (pair :: pairs) = entry field pair ++ entries rest pairs := rfl

theorem toList_fieldText (width : Nat) (name : FieldName) (value : Nat) :
    (fieldText width name value).toList = entry ⟨name, width⟩ (name, value) := by
  rw [fieldText, String.toList_append, String.toList_append, String.toList_append,
    Numeral.toList_binary, List.append_assoc]
  rfl

theorem text_eq (d : Decoded) :
    d.text = d.format.name ++ ":" ++ String.join (List.zipWith
      (fun field pair => fieldText field.width pair.1 pair.2) d.format.fields d.fields) := by
  rw [text, List.map_zip_eq_zipWith]
  rfl

theorem toList_text (d : Decoded) :
    d.text.toList = d.format.name.toList ++ ':' :: entries d.format.fields d.fields := by
  have hentries : ∀ fields pairs, (List.zipWith
      (fun (field : Field) (pair : FieldName × Nat) => fieldText field.width pair.1 pair.2)
      fields pairs).flatMap String.toList = entries fields pairs := by
    intro fields pairs
    rw [List.flatMap_def, List.map_zipWith, entries]
    simp only [toList_fieldText]
    rfl
  rw [text_eq, String.toList_append, String.toList_append, String.toList_join, hentries,
    List.append_assoc]
  rfl

/-- Behind an entry the listing ends or goes on with a blank. -/
theorem takeWhile_entries {p : Char → Bool} (hp : p ' ' = false) (fields : List Field)
    (pairs : List (FieldName × Nat)) : (entries fields pairs).takeWhile p = [] := by
  cases fields with
  | nil => rfl
  | cons field rest =>
      cases pairs with
      | nil => rfl
      | cons pair others => exact List.takeWhile_cons_of_neg (by rw [hp]; decide)

theorem entries_take (fields : List Field) (pairs : List (FieldName × Nat)) :
    entries fields (pairs.take fields.length) = entries fields pairs := by
  have hshort : (List.zipWith entry fields pairs).length ≤ fields.length := by
    rw [List.length_zipWith]
    exact Nat.min_le_left ..
  have htake : List.zipWith entry fields (pairs.take fields.length) =
      List.zipWith entry fields pairs := by
    rw [← List.take_of_length_le hshort, List.take_zipWith, List.take_length]
  rw [entries, htake, entries]

theorem entry_append_inj {field : Field} {pair pair' : FieldName × Nat} {ys ys' : List Char}
    (hys : ys.takeWhile (· ≠ ' ') = []) (hys' : ys'.takeWhile (· ≠ ' ') = [])
    (h : entry field pair ++ ys = entry field pair' ++ ys') : pair = pair' ∧ ys = ys' := by
  rw [entry, entry, List.cons_append, List.cons_append, List.append_assoc, List.append_assoc,
    List.cons_append, List.cons_append] at h
  obtain ⟨hname, h⟩ := append_cons_inj (FieldName.equals_not_mem_text _)
    (FieldName.equals_not_mem_text _) (List.cons.inj h).2
  have hdigits : ∀ n, ∀ c ∈ Numeral.padded 2 field.width n, decide (c ≠ ' ') = true :=
    fun _ => Numeral.ne_blank_of_mem_padded (by decide) (by decide)
  obtain ⟨hvalue, hrest⟩ := append_inj_of_takeWhile (hdigits _) (hdigits _) hys hys' h
  have hread := Numeral.readFrom?_padded (b := 2) (by decide) (by decide) field.width pair.2
  rw [hvalue, Numeral.readFrom?_padded (by decide) (by decide)] at hread
  exact ⟨Prod.ext (FieldName.text_injective (String.toList_injective hname))
    (Option.some_inj.mp hread).symm, hrest⟩

/-- Entries in the widths of the same fields show the same pairs, up to the number of fields. -/
theorem take_eq_of_entries_eq {fields : List Field} {pairs pairs' : List (FieldName × Nat)}
    (h : entries fields pairs = entries fields pairs') :
    pairs.take fields.length = pairs'.take fields.length := by
  induction fields generalizing pairs pairs' with
  | nil => rfl
  | cons field rest ih =>
      match pairs, pairs' with
      | [], [] => rfl
      | [], _ :: _ => cases h
      | _ :: _, [] => cases h
      | pair :: others, pair' :: others' =>
          rw [entries_cons_cons, entries_cons_cons] at h
          obtain ⟨rfl, hrest⟩ := entry_append_inj (takeWhile_entries rfl _ _)
            (takeWhile_entries rfl _ _) h
          rw [List.length_cons, List.take_succ_cons, List.take_succ_cons, ih hrest]

theorem text_eq_iff {d d' : Decoded} :
    d.text = d'.text ↔ d.format = d'.format ∧
      d.fields.take d.format.fields.length = d'.fields.take d.format.fields.length := by
  rw [← String.toList_inj, toList_text, toList_text]
  constructor
  · intro h
    obtain ⟨hname, hentries⟩ := append_cons_inj (Format.colon_not_mem_name _)
      (Format.colon_not_mem_name _) h
    have hformat := Format.name_injective (String.toList_injective hname)
    rw [← hformat] at hentries
    exact ⟨hformat, take_eq_of_entries_eq hentries⟩
  · rintro ⟨hformat, hfields⟩
    rw [← hformat, ← entries_take, hfields, entries_take]

/-! ## The digits of a listing -/

/-- The runs of digits behind the equals signs of a text. -/
def digitGroups : List Char → List (List Char)
  | [] => []
  | c :: rest =>
    if c = '=' then rest.takeWhile Char.isDigit :: digitGroups rest else digitGroups rest

theorem digitGroups_append {xs : List Char} (h : '=' ∉ xs) (ys : List Char) :
    digitGroups (xs ++ ys) = digitGroups ys := by
  induction xs with
  | nil => rfl
  | cons c rest ih =>
      rw [List.mem_cons, not_or] at h
      rw [List.cons_append, digitGroups, if_neg (Ne.symm h.1), ih h.2]

theorem digitGroups_entries (fields : List Field) (pairs : List (FieldName × Nat)) :
    digitGroups (entries fields pairs) =
      List.zipWith (fun field pair => Numeral.padded 2 field.width pair.2) fields pairs := by
  induction fields generalizing pairs with
  | nil => rfl
  | cons field rest ih =>
      cases pairs with
      | nil => rfl
      | cons pair others =>
          have hbits : ∀ c ∈ Numeral.padded 2 field.width pair.2, c = '0' ∨ c = '1' :=
            fun _ => Numeral.mem_padded_two
          have hdigits : ∀ c ∈ Numeral.padded 2 field.width pair.2, c.isDigit = true := by
            intro c hc
            rcases hbits c hc with rfl | rfl <;> decide
          have hequals : '=' ∉ Numeral.padded 2 field.width pair.2 := by
            intro hmem
            exact absurd (hbits _ hmem) (by decide)
          have hname : '=' ∉ ' ' :: pair.1.text.toList := by
            rw [List.mem_cons, not_or]
            exact ⟨by decide, FieldName.equals_not_mem_text _⟩
          rw [entries_cons_cons, entry, ← List.cons_append, List.append_assoc,
            digitGroups_append hname, List.cons_append, digitGroups, if_pos rfl,
            List.takeWhile_append_of_pos hdigits, takeWhile_entries (by decide), List.append_nil,
            digitGroups_append hequals, ih, List.zipWith_cons_cons]

theorem digitGroups_text (d : Decoded) :
    digitGroups d.text.toList = List.zipWith (fun field value => Numeral.padded 2 field.width value)
      d.format.fields (d.fields.map (·.2)) := by
  have hname : '=' ∉ d.format.name.toList ++ [':'] := by
    cases d.format <;> decide
  rw [toList_text, List.append_cons, digitGroups_append hname, digitGroups_entries,
    List.zipWith_map_right]

/-- The numerals in the listing of a word are the bits of the word. -/
theorem flatten_digitGroups (w : Word) :
    (digitGroups (decode w).text.toList).flatten = w.toBits.toList := by
  have hvalues : (decode w).fields.map (·.2) = slices w.toNat (Format.ofWord w).fields :=
    Format.values_split _ w
  have hslices := flatten_slices (Format.ofWord w).width_pos (by rw [Format.bits_fields]; decide)
    (by rw [Format.bits_fields]; exact w.isLt)
  rw [Format.bits_fields] at hslices
  rw [digitGroups_text, hvalues, Word.toList_toBits]
  exact hslices

/-- A listing shows its format and its fields, as far as the format has any, and nothing else: two
decoded words, however they were made, have the same listing exactly if they agree in these. The
digits in the listing of a word are its bits from left to right, so the listing is that of no other
word. -/
theorem listing_determines :
    (∀ d d' : Decoded, d.text = d'.text ↔ d.format = d'.format ∧
      d.fields.take d.format.fields.length = d'.fields.take d.format.fields.length) ∧
    (∀ w : Word, (digitGroups (decode w).text.toList).flatten = w.toBits.toList) ∧
    ∀ w w' : Word, (decode w).text = (decode w').text ↔ w = w' := by
  refine ⟨fun d d' => text_eq_iff, flatten_digitGroups, fun w w' => ⟨fun h => ?_, fun h => by rw [h]⟩⟩
  have hbits : w.toBits = w'.toBits := by
    rw [← String.toList_inj, ← flatten_digitGroups, ← flatten_digitGroups, h]
  have hword := Word.ofBits_toBits w
  rw [hbits, Word.ofBits_toBits] at hword
  exact (Except.ok.inj hword).symm

/-- A value too wide for its field is written in full, and a third field of a jump is not listed. -/
example : text ⟨0#32, .j, [(.rd, 65), (.op, 1), (.op, 2)]⟩ =
    "J: rd=1000001 op=00000000000000000000000001" := by
  decide +kernel

end Decoded

end MipsWords
