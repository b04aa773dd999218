import MipsWords.Proofs.HexWords
import MipsWords.Proofs.Logging
import MipsWords.Proofs.Operands

/-!
# The text of an operand

Blanks around an operand are dropped before anything is made of it, so they
change neither a result nor an error. No word has a blank in it, which is why
the tab of a result line ends its first column: in `classify` that is the
operand without its blanks, in `disasm` the word in eight hexadecimal digits.

Both columns are operands again. The digits that are printed are of the lower
case and always eight, and they are digits to the reader as well, so the column
of a word is read as that word and the line is found again from it.
-/

namespace MipsWords

/-! ## Blanks at the ends -/

namespace Blank

/-- A text of blanks and nothing else. -/
def OnlyBlanks (s : String) : Prop := ∀ c ∈ s.toList, isBlank c = true

theorem trimChars_append {before cs behind : List Char} (hbefore : ∀ c ∈ before, isBlank c = true)
    (hbehind : ∀ c ∈ behind, isBlank c = true) :
    trimChars (before ++ cs ++ behind) = trimChars cs := by
  have hreverse : ∀ c ∈ behind.reverse, isBlank c = true :=
    fun c hc => hbehind c (List.mem_reverse.mp hc)
  rw [trimChars, trimChars, List.append_assoc, List.dropWhile_append_of_pos hbefore,
    List.dropWhile_append]
  split
  · next hnone =>
      rw [List.isEmpty_iff.mp hnone, List.dropWhile_eq_nil_iff.mpr hbehind]
  · rw [List.reverse_append, List.dropWhile_append_of_pos hreverse]

theorem trim_append {before s behind : String} (hbefore : OnlyBlanks before)
    (hbehind : OnlyBlanks behind) : trim (before ++ s ++ behind) = trim s := by
  rw [trim, String.toList_append, String.toList_append, trimChars_append hbefore hbehind, trim]

theorem dropWhile_isBlank {cs : List Char} (h : ∀ c ∈ cs, isBlank c = false) :
    cs.dropWhile isBlank = cs := by
  rw [List.dropWhile_eq_self_iff]
  intro hpos hblank
  rw [h _ (List.getElem_mem hpos)] at hblank
  cases hblank

/-- Nothing is dropped of a text without blanks. -/
theorem trim_eq_self {s : String} (h : ∀ c ∈ s.toList, isBlank c = false) : trim s = s := by
  have hreverse : ∀ c ∈ s.toList.reverse, isBlank c = false :=
    fun c hc => h c (List.mem_reverse.mp hc)
  rw [trim, trimChars, dropWhile_isBlank h, dropWhile_isBlank hreverse, List.reverse_reverse,
    String.ofList_toList]

/-- The characters of ASCII that leave a mark are not blank. -/
theorem isBlank_of_bounds {c : Char} (h : 33 ≤ c.toNat ∧ c.toNat ≤ 126) : isBlank c = false := by
  simp only [isBlank, Bool.or_eq_false_iff, Bool.and_eq_false_iff, decide_eq_false_iff_not,
    beq_eq_false_iff_ne]
  omega

end Blank

/-! ## The column of a word -/

namespace Numeral

/-- Digits are written in the lower case. -/
theorem mem_hexDigits_of_mem_toDigits {n : Nat} {c : Char} (h : c ∈ Nat.toDigits 16 n) :
    c ∈ hexDigits := by
  have hdigit : ∀ d < 16, Nat.digitChar d ∈ hexDigits := by decide
  induction n using Nat.strong_induction_on with
  | h n ih =>
      rw [Nat.toDigits_eq_if (by decide)] at h
      split at h
      · next hn => exact List.mem_singleton.mp h ▸ hdigit n hn
      · next hn =>
          rcases List.mem_append.mp h with hfront | hlast
          · exact ih _ (Nat.div_lt_self (by omega) (by decide)) hfront
          · exact List.mem_singleton.mp hlast ▸ hdigit _ (Nat.mod_lt n (by decide))

theorem mem_hexDigits_of_mem_padded {width n : Nat} {c : Char} (h : c ∈ padded 16 width n) :
    c ∈ hexDigits := by
  rcases List.mem_append.mp h with hzero | hdigit
  · rw [List.eq_of_mem_replicate hzero]
    exact List.mem_cons_self
  · exact mem_hexDigits_of_mem_toDigits hdigit

end Numeral

namespace Word

open Numeral Blank

theorem toList_hexLiteral (w : Word) : w.hexLiteral.toList = '0' :: 'x' :: padded 16 8 w.toNat :=
  Operand.toList_hexLiteral 8 w.toNat

theorem length_hexDigits (w : Word) : (padded 16 8 w.toNat).length = 8 :=
  length_padded (by decide) (by decide) (Nat.lt_of_lt_of_le w.isLt (by decide))

/-- A word reads back from its hexadecimal literal. -/
theorem parse_hexLiteral (w : Word) : parse w.hexLiteral = .ok w := by
  have hform : HexForm w.hexLiteral (padded 16 8 w.toNat) := .inl (toList_hexLiteral w)
  have hread : read? 16 (padded 16 8 w.toNat) = some w.toNat :=
    read?_padded (by decide) (by decide) 8 w.toNat
  have hdigits : literalDigits (padded 16 8 w.toNat) = padded 16 8 w.toNat := by
    refine List.filter_eq_self.mpr fun c hc => decide_eq_true ?_
    rintro rfl
    exact absurd (mem_hexDigits_of_mem_padded hc) (by decide)
  have hnumeral : IsHexNumeral (padded 16 8 w.toNat) :=
    .of_read? (Nat.le_of_eq (length_hexDigits w)) hread
  rw [parse_eq_ok_iff hform, hdigits]
  exact ⟨hnumeral, Option.some_inj.mp (hread.symm.trans hnumeral.read?_eq)⟩

theorem not_blank_of_isHexDigit {c : Char} (h : IsHexDigit c) : isBlank c = false := by
  have hdigit := digit?_sixteen c
  rw [if_pos h] at hdigit
  have := toNat_bounds_of_digit? hdigit
  exact isBlank_of_bounds (by omega)

/-- A text that is a word has no blank in it. -/
theorem not_blank_of_parse {text : String} {w : Word} (h : parse text = .ok w) :
    ∀ c ∈ text.toList, isBlank c = false := by
  by_cases hform : ∃ rest, HexForm text rest
  · obtain ⟨rest, hform⟩ := hform
    obtain ⟨hnumeral, -⟩ := (parse_eq_ok_iff hform).mp h
    have hrest : ∀ c ∈ rest, isBlank c = false := by
      intro c hc
      by_cases hunderscore : c = '_'
      · rw [hunderscore]
        decide
      · exact not_blank_of_isHexDigit (hnumeral.isHexDigit c
          (List.mem_filter.mpr ⟨hc, decide_eq_true hunderscore⟩))
    rcases hform with htext | htext
    · rw [htext]
      exact List.forall_mem_cons.mpr ⟨by decide, List.forall_mem_cons.mpr ⟨by decide, hrest⟩⟩
    · rw [htext]
      exact List.forall_mem_cons.mpr ⟨by decide, List.forall_mem_cons.mpr ⟨by decide, hrest⟩⟩
  · rw [parse_of_not_hexForm (not_exists.mp hform)] at h
    intro c hc
    rcases mem_of_ofBits h c hc with rfl | rfl <;> decide

end Word

/-! ## Result lines -/

namespace Command

open Blank (OnlyBlanks)

/-- The text of a result line before its first tab. -/
def column (line : String) : String := String.ofList (line.toList.takeWhile (· ≠ '\t'))

/-- A word ends at the tab behind it. -/
theorem column_of_parse {text behind : String} {w : Word} (h : Word.parse text = .ok w) :
    column (text ++ "\t" ++ behind) = text := by
  have htab : ∀ c ∈ text.toList, decide (c ≠ '\t') = true := by
    intro c hc
    refine decide_eq_true ?_
    rintro rfl
    exact absurd (Word.not_blank_of_parse h _ hc) (by decide)
  rw [column, String.toList_append, String.toList_append, List.append_assoc,
    List.takeWhile_append_of_pos htab]
  show String.ofList (text.toList ++ []) = text
  rw [List.append_nil, String.ofList_toList]

theorem classifyLine_eq_ok_iff {input line : String} :
    classifyLine input = .ok line ↔ ∃ w, Word.parse (Blank.trim input) = .ok w ∧
      line = Blank.trim input ++ "\t" ++ (decode w).text := by
  rw [classifyLine]
  cases Word.parse (Blank.trim input) with
  | error e => simp [Except.map]
  | ok w => simp [Except.map, eq_comm]

theorem disasmLine_eq_ok_iff {names : Lookup} {style : Style} {input line : String} :
    disasmLine names style input = .ok line ↔ ∃ w assembly,
      Word.parse (Blank.trim input) = .ok w ∧ disassemble names style w = .ok assembly ∧
      line = w.hexLiteral ++ "\t" ++ assembly := by
  simp only [← and_assoc, ← disassembleInput_eq_ok_iff, disasmLine]
  cases disassembleInput names style input with
  | error e => simp [Except.map]
  | ok done => simp [Except.map, Prod.ext_iff, eq_comm]

/-- Lines of words begin with the words. -/
theorem hexLiteral_line_inj {w w' : Word} {assembly assembly' : String}
    (h : w.hexLiteral ++ "\t" ++ assembly = w'.hexLiteral ++ "\t" ++ assembly') : w = w' := by
  have hcolumn := congrArg column h
  rw [column_of_parse w.parse_hexLiteral, column_of_parse w'.parse_hexLiteral] at hcolumn
  have hword := w.parse_hexLiteral
  rw [hcolumn, w'.parse_hexLiteral] at hword
  exact (Except.ok.inj hword).symm

/-- The first column of a line of `disasm` is the word in hexadecimal, and an operand for it. -/
theorem disasmLine_column {names : Lookup} {style : Style} {input line : String}
    (h : disasmLine names style input = .ok line) :
    ∃ w assembly, Word.parse (Blank.trim input) = .ok w ∧ disassemble names style w = .ok assembly ∧
      column line = w.hexLiteral ∧ line = column line ++ "\t" ++ assembly ∧
      disasmLine names style (column line) = .ok line := by
  obtain ⟨w, assembly, hword, hassembly, rfl⟩ := disasmLine_eq_ok_iff.mp h
  have hcolumn : column (w.hexLiteral ++ "\t" ++ assembly) = w.hexLiteral :=
    column_of_parse w.parse_hexLiteral
  have htrim := Blank.trim_eq_self (Word.not_blank_of_parse w.parse_hexLiteral)
  refine ⟨w, assembly, hword, hassembly, hcolumn, by rw [hcolumn], ?_⟩
  rw [hcolumn]
  exact disasmLine_eq_ok_iff.mpr
    ⟨w, assembly, by rw [htrim, w.parse_hexLiteral], hassembly, rfl⟩

/-- The first column of a line of `classify` is the operand without blanks, and an operand with the
same line. -/
theorem classifyLine_column {input line : String} (h : classifyLine input = .ok line) :
    ∃ w, Word.parse (Blank.trim input) = .ok w ∧ column line = Blank.trim input ∧
      line = column line ++ "\t" ++ (decode w).text ∧ classifyLine (column line) = .ok line := by
  obtain ⟨w, hword, rfl⟩ := classifyLine_eq_ok_iff.mp h
  have hcolumn : column (Blank.trim input ++ "\t" ++ (decode w).text) = Blank.trim input :=
    column_of_parse hword
  have htrim := Blank.trim_eq_self (Word.not_blank_of_parse hword)
  refine ⟨w, hword, hcolumn, by rw [hcolumn], ?_⟩
  rw [hcolumn]
  exact classifyLine_eq_ok_iff.mpr ⟨w, by rw [htrim, hword], by rw [htrim]⟩

/-- Operands are read without the blanks around them, and printed as operands for the same line.
Blanks at the ends change neither a line nor an error. The first column of a line of `disasm` is
`0x` with eight digits of the lower case, and of a line of `classify` the operand; either is read
as the word of the operand and has the same line again. Two words have different lines in
`disasm`. -/
theorem operand_text (names : Lookup) (style : Style) :
    (∀ before s behind : String, OnlyBlanks before → OnlyBlanks behind →
      classifyLine (before ++ s ++ behind) = classifyLine s ∧
      disasmLine names style (before ++ s ++ behind) = disasmLine names style s) ∧
    (∀ input line, disasmLine names style input = .ok line →
      ∃ digits w assembly, column line = "0x" ++ String.ofList digits ∧ digits.length = 8 ∧
        (∀ c ∈ digits, c ∈ Numeral.hexDigits) ∧ line = column line ++ "\t" ++ assembly ∧
        Word.parse (Blank.trim input) = .ok w ∧ Word.parse (column line) = .ok w ∧
        disasmLine names style (column line) = .ok line) ∧
    (∀ input line, classifyLine input = .ok line →
      ∃ w listing, line = column line ++ "\t" ++ listing ∧
        Word.parse (Blank.trim input) = .ok w ∧ Word.parse (column line) = .ok w ∧
        classifyLine (column line) = .ok line) ∧
    ∀ input input' line line', disasmLine names style input = .ok line →
      disasmLine names style input' = .ok line' →
      (line = line' ↔ Word.parse (Blank.trim input) = Word.parse (Blank.trim input')) := by
  refine ⟨fun before s behind hbefore hbehind => ?_, fun input line h => ?_,
    fun input line h => ?_, fun input input' line line' h h' => ?_⟩
  · have htrim := Blank.trim_append (s := s) hbefore hbehind
    exact ⟨by simp only [classifyLine, htrim], by simp only [disasmLine, disassembleInput, htrim]⟩
  · obtain ⟨w, assembly, hword, -, hcolumn, hline, hagain⟩ := disasmLine_column h
    exact ⟨_, w, assembly, hcolumn, w.length_hexDigits,
      fun _ => Numeral.mem_hexDigits_of_mem_padded, hline, hword,
      hcolumn ▸ w.parse_hexLiteral, hagain⟩
  · obtain ⟨w, hword, hcolumn, hline, hagain⟩ := classifyLine_column h
    exact ⟨w, _, hline, hword, hcolumn ▸ hword, hagain⟩
  · obtain ⟨w, assembly, hword, hassembly, rfl⟩ := disasmLine_eq_ok_iff.mp h
    obtain ⟨w', assembly', hword', hassembly', rfl⟩ := disasmLine_eq_ok_iff.mp h'
    rw [hword, hword', Except.ok.injEq]
    constructor
    · exact hexLiteral_line_inj
    · rintro rfl
      rw [Except.ok.inj (hassembly.symm.trans hassembly')]

/-- An ideographic space in front and a line feed behind, around a word in either form. -/
theorem operand_text_ideographic :
    let names : Lookup := Table.builtin.resolve
    let bits := "00000001001010100100000000100000"
    let line := "0x012a4020\tadd $t0, $t1, $t2"
    let listing := "0X12a_4020\tR: op=000000 rs=01001 rt=01010 rd=01000 shamt=00000 func=100000"
    disasmLine names {} ("\u3000" ++ "0X12a_4020" ++ "\n") = .ok line ∧
      disasmLine names {} "0x012a4020" = .ok line ∧
      classifyLine ("\u3000" ++ "0X12a_4020" ++ "\n") = .ok listing ∧
      classifyLine "0X12a_4020" = .ok listing ∧
      disasmLine names {} bits = .ok line ∧
      Word.parse (Blank.trim bits) = Word.parse (Blank.trim "0X12a_4020") := by
  intro names bits line listing
  have hbefore : OnlyBlanks "\u3000" := List.all_eq_true.mp (by decide +kernel)
  have hbehind : OnlyBlanks "\n" := List.all_eq_true.mp (by decide +kernel)
  have hhex : disasmLine names {} "0X12a_4020" = .ok line := by decide +kernel
  have hbits : disasmLine names {} bits = .ok line := by decide +kernel
  have hlisting : classifyLine ("\u3000" ++ "0X12a_4020" ++ "\n") = .ok listing := by
    decide +kernel
  obtain ⟨hblanks, hdisasm, hclassify, hsame⟩ := operand_text names {}
  obtain ⟨-, -, -, -, -, -, -, -, -, hagain⟩ := hdisasm _ _ hhex
  rw [show column line = "0x012a4020" by decide +kernel] at hagain
  obtain ⟨-, -, -, -, -, hagain'⟩ := hclassify _ _ hlisting
  rw [show column listing = "0X12a_4020" by decide +kernel] at hagain'
  exact ⟨((hblanks _ _ _ hbefore hbehind).2).trans hhex, hagain, hlisting, hagain', hbits,
    (hsame _ _ _ _ hbits hhex).mp rfl⟩

end Command

end MipsWords
