import MipsWords.Proofs.BinaryWords

/-!
# Words in hexadecimal

A hexadecimal literal stands for the value of its digits to the base sixteen,
where a digit is worth its place in `hexDigits` in either case. Underscores are
no digits and are passed over, so of a literal only the run of its digits
counts, and of that only what is left without the case of letters and without
zeros in front (`significant`). Two literals of at most eight digits are the same
word exactly if they agree in that.

Eight digits are below `2 ^ 32`, so nothing is lost in the word. A text in
binary has a bit in the place of the `x` and is no literal.
-/

namespace MipsWords

namespace Numeral

/-- The digits to the base sixteen, in lower case and by their values. -/
def hexDigits : List Char :=
  ['0', '1', '2', '3', '4', '5', '6', '7', '8', '9', 'a', 'b', 'c', 'd', 'e', 'f']

/-- A digit to the base sixteen, in either case. -/
def IsHexDigit (c : Char) : Prop := c.toLower ∈ hexDigits

instance (c : Char) : Decidable (IsHexDigit c) := inferInstanceAs (Decidable (_ ∈ _))

/-- The value of a digit to the base sixteen. -/
def hexDigitValue (c : Char) : Nat := hexDigits.idxOf c.toLower

/-- The value of a run of digits to the base sixteen, the most significant first. -/
def hexValue (digits : List Char) : Nat := Nat.ofDigits 16 (digits.map hexDigitValue).reverse

theorem toLower_of_le {c : Char} (h : 128 ≤ c.toNat) : c.toLower = c := by
  rw [Char.toLower]
  split
  · next hupper =>
      have hle : c.toNat ≤ 90 := hupper.2
      omega
  · rfl

theorem digit?_of_le {c : Char} (h : 128 ≤ c.toNat) : digit? 16 c = none := by
  rw [digit?, if_neg, if_neg, if_neg]
  · rfl
  · intro hupper
    have hle : c.toNat ≤ 70 := hupper.2
    omega
  · intro hlower
    have hle : c.toNat ≤ 102 := hlower.2
    omega
  · intro hdigit
    have hle : c.toNat ≤ 57 := hdigit.2
    omega

theorem not_isHexDigit_of_le {c : Char} (h : 128 ≤ c.toNat) : ¬IsHexDigit c := by
  intro hmem
  rw [IsHexDigit, toLower_of_le h] at hmem
  have hsmall : ∀ d ∈ hexDigits, d.toNat < 128 := by simp [hexDigits]
  have := hsmall c hmem
  omega

/-- The reader of digits goes by the ranges of their codes. That these are the places of the
alphabet is decided for the ASCII characters, and behind them neither side has a digit. -/
theorem digit?_sixteen (c : Char) :
    digit? 16 c = if IsHexDigit c then some (hexDigitValue c) else none := by
  have hascii : ∀ n < 128, digit? 16 (Char.ofNat n) =
      if IsHexDigit (Char.ofNat n) then some (hexDigitValue (Char.ofNat n)) else none := by
    decide +kernel
  rcases Nat.lt_or_ge c.toNat 128 with hc | hc
  · rw [← Char.ofNat_toNat c]
    exact hascii _ hc
  · rw [digit?_of_le hc, if_neg (not_isHexDigit_of_le hc)]

theorem hexDigitValue_lt {c : Char} (h : IsHexDigit c) : hexDigitValue c < 16 :=
  List.idxOf_lt_length_of_mem h

/-- Reading behind a number puts the value of the digits behind it. -/
theorem readFrom?_sixteen {n : Nat} {digits : List Char} (h : ∀ c ∈ digits, IsHexDigit c) :
    readFrom? 16 n digits = some (16 ^ digits.length * n + hexValue digits) := by
  induction digits generalizing n with
  | nil => simp [readFrom?, hexValue]
  | cons c rest ih =>
      obtain ⟨hc, hrest⟩ := List.forall_mem_cons.mp h
      rw [readFrom?, digit?_sixteen, if_pos hc, Option.bind_some, ih hrest, hexValue, hexValue,
        List.map_cons, List.reverse_cons, Nat.ofDigits_append, Nat.ofDigits_singleton,
        List.length_reverse, List.length_map, List.length_cons]
      congr 1
      ring

/-- Nothing but digits is read. -/
theorem isHexDigit_of_readFrom? {n m : Nat} {digits : List Char}
    (h : readFrom? 16 n digits = some m) : ∀ c ∈ digits, IsHexDigit c := by
  intro c hc
  have hsome := isSome_digit?_of_readFrom? h c hc
  rw [digit?_sixteen] at hsome
  by_contra hnone
  rw [if_neg hnone] at hsome
  cases hsome

/-- One to eight digits to the base sixteen. -/
structure IsHexNumeral (digits : List Char) : Prop where
  ne_nil : digits ≠ []
  length_le : digits.length ≤ 8
  isHexDigit : ∀ c ∈ digits, IsHexDigit c

theorem IsHexNumeral.read?_eq {digits : List Char} (h : IsHexNumeral digits) :
    read? 16 digits = some (hexValue digits) := by
  rw [read?, List.isEmpty_eq_false_iff.mpr h.ne_nil]
  exact (readFrom?_sixteen h.isHexDigit).trans (by rw [Nat.mul_zero, Nat.zero_add])

theorem IsHexNumeral.of_read? {digits : List Char} {n : Nat} (hlength : digits.length ≤ 8)
    (h : read? 16 digits = some n) : IsHexNumeral digits := by
  rw [read?] at h
  split at h
  · cases h
  · next hne =>
      exact ⟨fun hnil => hne (hnil ▸ rfl), hlength, isHexDigit_of_readFrom? h⟩

theorem hexValue_lt {digits : List Char} (h : ∀ c ∈ digits, IsHexDigit c) :
    hexValue digits < 16 ^ digits.length := by
  rw [← List.length_map (f := hexDigitValue), ← List.length_reverse]
  refine Nat.ofDigits_lt_base_pow_length (by decide) fun d hd => ?_
  obtain ⟨c, hc, rfl⟩ := List.mem_map.mp (List.mem_reverse.mp hd)
  exact hexDigitValue_lt (h c hc)

theorem IsHexNumeral.hexValue_lt {digits : List Char} (h : IsHexNumeral digits) :
    hexValue digits < 2 ^ 32 :=
  calc hexValue digits < 16 ^ digits.length := Numeral.hexValue_lt h.isHexDigit
    _ ≤ 16 ^ 8 := Nat.pow_le_pow_right (by decide) h.length_le
    _ = 2 ^ 32 := by decide

/-! ## What counts of a run of digits -/

/-- Digits without the case of letters and without zeros in front. -/
def significant (digits : List Char) : List Char :=
  (digits.map Char.toLower).dropWhile (· = '0')

theorem hexValue_map_toLower (digits : List Char) :
    hexValue (digits.map Char.toLower) = hexValue digits := by
  rw [hexValue, hexValue, List.map_map]
  congr 2
  refine List.map_congr_left fun c _ => ?_
  simp [hexDigitValue]

theorem hexValue_zero_cons (digits : List Char) : hexValue ('0' :: digits) = hexValue digits := by
  rw [hexValue, hexValue, List.map_cons, List.reverse_cons, Nat.ofDigits_append,
    Nat.ofDigits_singleton, show hexDigitValue '0' = 0 from rfl, Nat.mul_zero, Nat.add_zero]

theorem hexValue_significant (digits : List Char) :
    hexValue (significant digits) = hexValue digits := by
  rw [significant, ← hexValue_map_toLower digits]
  induction digits.map Char.toLower with
  | nil => rfl
  | cons c rest ih =>
      by_cases hc : c = '0'
      · rw [List.dropWhile_cons_of_pos (by simpa using hc), ih, hc, hexValue_zero_cons]
      · rw [List.dropWhile_cons_of_neg (by simpa using hc)]

theorem mem_significant {digits : List Char} (h : ∀ c ∈ digits, IsHexDigit c) {c : Char}
    (hc : c ∈ significant digits) : c.toLower = c ∧ c ∈ hexDigits := by
  obtain ⟨d, hd, rfl⟩ := List.mem_map.mp ((List.dropWhile_sublist _).mem hc)
  exact ⟨Char.toLower_toLower_eq_toLower d, h d hd⟩

/-- What is left out is a digit, so a run is one of digits if what counts of it is. -/
theorem isHexDigit_of_significant {digits : List Char}
    (h : ∀ c ∈ significant digits, c ∈ hexDigits) {c : Char} (hc : c ∈ digits) :
    IsHexDigit c := by
  have hlower : c.toLower ∈ digits.map Char.toLower := List.mem_map_of_mem hc
  rw [← List.takeWhile_append_dropWhile (p := (· = '0')) (l := digits.map Char.toLower)]
    at hlower
  rcases List.mem_append.mp hlower with hzero | hrest
  · have heq : c.toLower = '0' := by simpa using List.mem_takeWhile_imp hzero
    rw [IsHexDigit, heq]
    exact List.mem_cons_self
  · exact h _ hrest

theorem getD_idxOf_hexDigits {c : Char} (h : c ∈ hexDigits) :
    hexDigits.getD (hexDigits.idxOf c) '0' = c := by
  rw [List.getD_eq_getElem _ _ (List.idxOf_lt_length_of_mem h), List.getElem_idxOf]

/-- The first of the significant digits is worth something. -/
theorem hexDigitValue_head_significant {digits : List Char} (h : ∀ c ∈ digits, IsHexDigit c)
    (hne : significant digits ≠ []) : hexDigitValue ((significant digits).head hne) ≠ 0 := by
  intro hzero
  obtain ⟨hlower, hmem⟩ := mem_significant h (List.head_mem hne)
  rw [hexDigitValue, hlower] at hzero
  have hhead : (significant digits).head hne = '0' := by
    rw [← getD_idxOf_hexDigits hmem, hzero]
    rfl
  have hfalse := List.head_dropWhile_not (· = '0') hne
  exact of_decide_eq_false hfalse hhead

/-- The significant digits are the numeral of the value. -/
theorem significant_eq {digits : List Char} (h : ∀ c ∈ digits, IsHexDigit c) :
    significant digits =
      ((Nat.digits 16 (hexValue digits)).map fun d => hexDigits.getD d '0').reverse := by
  have hdigits : Nat.digits 16 (hexValue digits) =
      ((significant digits).map hexDigitValue).reverse := by
    rw [← hexValue_significant, hexValue]
    refine Nat.digits_ofDigits 16 (by decide) _ (fun d hd => ?_) fun hne => ?_
    · obtain ⟨c, hc, rfl⟩ := List.mem_map.mp (List.mem_reverse.mp hd)
      obtain ⟨hlower, hmem⟩ := mem_significant h hc
      exact hexDigitValue_lt (by rwa [IsHexDigit, hlower])
    · rw [List.getLast_reverse, List.head_map]
      exact hexDigitValue_head_significant h _
  rw [hdigits, List.map_reverse, List.reverse_reverse, List.map_map]
  symm
  refine (List.map_congr_left fun c hc => ?_).trans (List.map_id _)
  obtain ⟨hlower, hmem⟩ := mem_significant h hc
  rw [Function.comp_apply, hexDigitValue, hlower, getD_idxOf_hexDigits hmem, id]

theorem hexValue_eq_iff {digits digits' : List Char} (h : ∀ c ∈ digits, IsHexDigit c)
    (h' : ∀ c ∈ digits', IsHexDigit c) :
    hexValue digits = hexValue digits' ↔ significant digits = significant digits' := by
  constructor
  · intro hvalue
    rw [significant_eq h, significant_eq h', hvalue]
  · intro hsignificant
    rw [← hexValue_significant, hsignificant, hexValue_significant]

end Numeral

namespace Word

open Numeral

/-- A text that starts with `0x` or `0X`, and what stands behind that. -/
def HexForm (text : String) (rest : List Char) : Prop :=
  text.toList = '0' :: 'x' :: rest ∨ text.toList = '0' :: 'X' :: rest

/-- The digits of a literal, its underscores left out. -/
def literalDigits (rest : List Char) : List Char := rest.filter (· ≠ '_')

theorem hexPart?_eq_some_iff {text : String} {rest : List Char} :
    hexPart? text.toList = some rest ↔ HexForm text rest := by
  rw [HexForm]
  generalize text.toList = chars
  constructor
  · intro h
    rw [hexPart?.eq_def] at h
    split at h
    · exact .inl (by rw [Option.some.inj h])
    · exact .inr (by rw [Option.some.inj h])
    · cases h
  · rintro (rfl | rfl) <;> rfl

theorem parse_of_hexForm {text : String} {rest : List Char} (h : HexForm text rest) :
    parse text = (ofHexDigits? rest).elim (.error (.hexWord text)) .ok := by
  simp only [parse, hexPart?_eq_some_iff.mpr h]
  cases ofHexDigits? rest <;> rfl

theorem parse_of_not_hexForm {text : String} (h : ∀ rest, ¬HexForm text rest) :
    parse text = ofBits text := by
  have hnone : hexPart? text.toList = none :=
    Option.eq_none_iff_forall_ne_some.mpr fun rest hrest => h rest (hexPart?_eq_some_iff.mp hrest)
  simp only [parse, hnone]

theorem ofHexDigits?_eq_read? (rest : List Char) :
    ofHexDigits? rest = if (literalDigits rest).length ≤ 8 then
      (read? 16 (literalDigits rest)).map (BitVec.ofNat 32) else none := rfl

theorem ofHexDigits?_eq_some {rest : List Char} (h : IsHexNumeral (literalDigits rest)) :
    ofHexDigits? rest = some (BitVec.ofNat 32 (hexValue (literalDigits rest))) := by
  rw [ofHexDigits?_eq_read?, if_pos h.length_le, h.read?_eq, Option.map_some]

theorem ofHexDigits?_eq_none {rest : List Char} (h : ¬IsHexNumeral (literalDigits rest)) :
    ofHexDigits? rest = none := by
  rw [ofHexDigits?_eq_read?]
  split
  · next hlength =>
      rw [Option.map_eq_none_iff, Option.eq_none_iff_forall_ne_some]
      exact fun n hread => h (.of_read? hlength hread)
  · rfl

theorem parse_eq_ok_iff {text : String} {rest : List Char} (h : HexForm text rest) {w : Word} :
    parse text = .ok w ↔
      IsHexNumeral (literalDigits rest) ∧ w.toNat = hexValue (literalDigits rest) := by
  rw [parse_of_hexForm h]
  by_cases hnumeral : IsHexNumeral (literalDigits rest)
  · rw [ofHexDigits?_eq_some hnumeral, Option.elim_some, Except.ok.injEq, ← BitVec.toNat_inj,
      BitVec.toNat_ofNat, Nat.mod_eq_of_lt hnumeral.hexValue_lt, eq_comm]
    exact (and_iff_right hnumeral).symm
  · rw [ofHexDigits?_eq_none hnumeral]
    exact iff_of_false nofun fun hword => hnumeral hword.1

theorem parse_eq_error {text : String} {rest : List Char} (h : HexForm text rest)
    (hnumeral : ¬IsHexNumeral (literalDigits rest)) : parse text = .error (.hexWord text) := by
  rw [parse_of_hexForm h, ofHexDigits?_eq_none hnumeral, Option.elim_none]

/-- Of two literals with at most eight digits, one is the word of the other exactly if the same
counts of both. -/
theorem parse_eq_ok_iff_significant {text text' : String} {rest rest' : List Char}
    (h : HexForm text rest) (h' : HexForm text' rest') (hne : literalDigits rest' ≠ [])
    (hlength : (literalDigits rest').length ≤ 8) {w : Word} (hword : parse text = .ok w) :
    significant (literalDigits rest') = significant (literalDigits rest) ↔
      parse text' = .ok w := by
  obtain ⟨hnumeral, hvalue⟩ := (parse_eq_ok_iff h).mp hword
  rw [parse_eq_ok_iff h', hvalue]
  constructor
  · intro hsame
    have hdigits : ∀ c ∈ literalDigits rest', IsHexDigit c := fun c hc =>
      isHexDigit_of_significant
        (fun d hd => (mem_significant hnumeral.isHexDigit (hsame ▸ hd)).2) hc
    exact ⟨⟨hne, hlength, hdigits⟩, ((hexValue_eq_iff hdigits hnumeral.isHexDigit).mpr hsame).symm⟩
  · rintro ⟨hnumeral', hsame⟩
    exact (hexValue_eq_iff hnumeral'.isHexDigit hnumeral.isHexDigit).mp hsame.symm

/-! ## The two forms -/

/-- A text of bits is no literal. -/
theorem not_hexForm_of_ofBits {text : String} {w : Word} (h : ofBits text = .ok w)
    (rest : List Char) : ¬HexForm text rest := by
  have hbits := mem_of_ofBits h
  rintro (hform | hform) <;>
  · rw [hform] at hbits
    have := hbits _ (List.mem_cons_of_mem _ List.mem_cons_self)
    revert this
    decide

/-- A text behind `0x` or `0X` is a word exactly if its digits, whatever underscores stand among
them, are one to eight to the base sixteen. It is the word of their value, which fits, and of every
other literal with the same significant digits; else the text is reported whole. Any other text is
one of bits, and no text of bits is taken for a literal. -/
theorem parse_hexadecimal (text : String) :
    (∀ rest, HexForm text rest →
      (∀ w, parse text = .ok w ↔
        IsHexNumeral (literalDigits rest) ∧ w.toNat = hexValue (literalDigits rest)) ∧
      (¬IsHexNumeral (literalDigits rest) → parse text = .error (.hexWord text)) ∧
      (IsHexNumeral (literalDigits rest) →
        read? 16 (literalDigits rest) = some (hexValue (literalDigits rest)) ∧
          hexValue (literalDigits rest) < 2 ^ 32) ∧
      ∀ text' rest', HexForm text' rest' → literalDigits rest' ≠ [] →
        (literalDigits rest').length ≤ 8 → ∀ w, parse text = .ok w →
          (significant (literalDigits rest') = significant (literalDigits rest) ↔
            parse text' = .ok w)) ∧
    ((∀ rest, ¬HexForm text rest) → parse text = ofBits text) ∧
    ∀ w, ofBits text = .ok w → parse text = .ok w := by
  refine ⟨fun rest h => ⟨fun w => parse_eq_ok_iff h, parse_eq_error h,
    fun hnumeral => ⟨hnumeral.read?_eq, hnumeral.hexValue_lt⟩,
    fun text' rest' h' hne hlength w => parse_eq_ok_iff_significant h h' hne hlength⟩,
    parse_of_not_hexForm, fun w hbits => ?_⟩
  rw [parse_of_not_hexForm (not_hexForm_of_ofBits hbits), hbits]

theorem parse_hexadecimal_underscore :
    parse "0x012A_4020" = .ok 0x012A4020#32 ∧ parse "0X12a4020" = .ok 0x012A4020#32 ∧
      parse "0x+1" = .error (.hexWord "0x+1") := by
  have hform : HexForm "0x012A_4020" "012A_4020".toList := .inl rfl
  obtain ⟨hok, -, -, hsame⟩ := (parse_hexadecimal "0x012A_4020").1 _ hform
  have hword := (hok 0x012A4020#32).mpr
    ⟨⟨by decide +kernel, by decide +kernel,
      List.all_iff_forall_prop.mp (by decide +kernel)⟩, by decide +kernel⟩
  refine ⟨hword, ?_, ?_⟩
  · exact (hsame "0X12a4020" "12a4020".toList (.inr rfl) (by decide +kernel)
      (by decide +kernel) _ hword).mp (by decide +kernel)
  · exact ((parse_hexadecimal "0x+1").1 "+1".toList (.inl rfl)).2.1
      fun h => absurd (h.isHexDigit '+' (by decide +kernel)) (by decide +kernel)

end Word

end MipsWords
