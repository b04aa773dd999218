import MipsWords.Disassembly
import MipsWords.Proofs.Operands
import MipsWords.Proofs.Outcome

/-!
# A line of assembly reads back

A line determines what it shows. Up to the first space stands the mnemonic, and
no operand holds a comma, so cutting the rest at its commas gives the operands
back one by one, and each of them reads back as the value of its field.

What a line does not show is which query its mnemonic answers. If no mnemonic is
given twice that follows too, and two words have the same line exactly when they
agree in the bits that select the operation and in every field that is printed.
-/

namespace MipsWords

namespace Line

/-! ## Cutting at commas -/

theorem pieces_cons {c : Char} (hc : c ≠ ',') {cs first : List Char} {others : List (List Char)}
    (h : pieces cs = first :: others) : pieces (c :: cs) = (c :: first) :: others := by
  rw [pieces]
  · rw [h]
  · intro rest heq
    exact absurd heq hc

theorem pieces_of_not_mem {cs : List Char} (h : ',' ∉ cs) : pieces cs = [cs] := by
  induction cs with
  | nil => rfl
  | cons c rest ih =>
      rw [List.mem_cons, not_or] at h
      exact pieces_cons (Ne.symm h.1) (ih h.2)

theorem pieces_append {cs : List Char} (h : ',' ∉ cs) (rest : List Char) :
    pieces (cs ++ ',' :: ' ' :: rest) = cs :: pieces rest := by
  induction cs with
  | nil => rw [List.nil_append, pieces]
  | cons c cs ih =>
      rw [List.mem_cons, not_or] at h
      exact pieces_cons (Ne.symm h.1) (ih h.2)

/-- Texts without commas are the pieces of the text that they are joined to. -/
theorem pieces_intercalate {texts : List (List Char)} (hne : texts ≠ [])
    (h : ∀ text ∈ texts, ',' ∉ text) : pieces ([',', ' '].intercalate texts) = texts := by
  induction texts with
  | nil => exact absurd rfl hne
  | cons text rest ih =>
      have htext := h text (List.mem_cons_self ..)
      cases rest with
      | nil => rw [List.intercalate_singleton, pieces_of_not_mem htext]
      | cons next others =>
          rw [List.intercalate_cons_cons, List.append_assoc]
          exact (pieces_append htext _).trans
            (congrArg _ (ih (List.cons_ne_nil next others) fun t ht => h t (List.mem_cons_of_mem _ ht)))

/-- A line splits into the mnemonic and the operands that it was made of. -/
theorem split_line {mnemonic : String} {texts : List String} (hm : ' ' ∉ mnemonic.toList)
    (hne : texts ≠ []) (h : ∀ text ∈ texts, ',' ∉ text.toList) :
    split (mnemonic ++ " " ++ ", ".intercalate texts) = (mnemonic, texts) := by
  have hchars : (mnemonic ++ " " ++ ", ".intercalate texts).toList =
      mnemonic.toList ++ ' ' :: [',', ' '].intercalate (texts.map String.toList) := by
    rw [String.toList_append, String.toList_append, String.toList_intercalate]
    simp
  have hword : ∀ c ∈ mnemonic.toList, (decide (c ≠ ' ')) = true := by
    intro c hc
    exact decide_eq_true fun heq => hm (heq ▸ hc)
  have hpieces : pieces ([',', ' '].intercalate (texts.map String.toList)) =
      texts.map String.toList := by
    refine pieces_intercalate (by simpa using hne) ?_
    intro text htext
    obtain ⟨t, ht, rfl⟩ := List.mem_map.mp htext
    exact h t ht
  rw [split, hchars, List.takeWhile_append_of_pos hword, List.dropWhile_append_of_pos hword]
  simp [hpieces, Function.comp_def]

end Line

/-! ## Vocabularies -/

/-- The queries that words make: all function codes, and all opcodes but zero. -/
def Query.asked : List Query :=
  (List.range 64).map (fun code => { opcode := 0, function? := some code }) ++
    ((List.range 64).filter (· ≠ 0)).map fun code => { opcode := code }

theorem Word.query_mem_asked (w : Word) : w.query ∈ Query.asked := by
  have hop : w.opcode < 64 := (w.extractLsb' 26 6).isLt
  have hfunction : w.function < 64 := (w.extractLsb' 0 6).isLt
  rw [Word.query, Query.asked, List.mem_append]
  split
  · next h => exact .inl (List.mem_map.mpr ⟨_, List.mem_range.mpr hfunction, by rw [h]⟩)
  · next h =>
      have hmem : w.opcode ∈ (List.range 64).filter (· ≠ 0) :=
        List.mem_filter.mpr ⟨List.mem_range.mpr hop, decide_eq_true h⟩
      exact .inr (List.mem_map.mpr ⟨_, hmem, rfl⟩)

/-- The mnemonics that words can have, one for each query that has one. -/
def Lookup.vocabulary (names : Lookup) : List String := Query.asked.filterMap names

/-- Mnemonics that can be told from each other and from what follows them in a line. -/
structure Lookup.Unambiguous (names : Lookup) : Prop where
  spaceless : ∀ name ∈ names.vocabulary, ' ' ∉ name.toList
  distinct : names.vocabulary.Nodup

theorem Lookup.mem_vocabulary {names : Lookup} {w : Word} {name : String}
    (h : names w.query = some name) : name ∈ names.vocabulary :=
  List.mem_filterMap.mpr ⟨_, w.query_mem_asked, h⟩

/-- A mnemonic of an unambiguous vocabulary answers one query. -/
theorem Lookup.Unambiguous.query_eq {names : Lookup} (h : names.Unambiguous) {w w' : Word}
    {name : String} (hname : names w.query = some name) (hname' : names w'.query = some name) :
    w.query = w'.query := by
  have hdistinct := h.distinct
  rw [Lookup.vocabulary, List.Nodup, List.pairwise_filterMap] at hdistinct
  have hsymm : Std.Symm fun q q' => ∀ a, names q = some a → ∀ b, names q' = some b → a ≠ b :=
    ⟨fun _ _ hqq b hb a ha heq => hqq a ha b hb heq.symm⟩
  by_contra hne
  exact hdistinct.forall w.query_mem_asked w'.query_mem_asked hne name hname name hname' rfl

/-! ## Reading a line back -/

theorem disassemble_eq_ok {names : Lookup} {style : Style} {w : Word} {line : String}
    (h : disassemble names style w = .ok line) :
    ∃ mnemonic, names w.query = some mnemonic ∧ (decode w).reserved? = none ∧
      line = mnemonic ++ " " ++ ", ".intercalate (operandTexts style w) := by
  rw [disassemble_eq] at h
  cases hname : names w.query with
  | none => rw [hname] at h; cases h
  | some mnemonic =>
      rw [hname] at h
      cases hreserved : (decode w).reserved? with
      | some code => rw [hreserved] at h; cases h
      | none =>
          rw [hreserved] at h
          exact ⟨mnemonic, rfl, rfl, (Except.ok.inj h).symm⟩

/-- If no printed register is reserved, every operand has a text. -/
theorem render_operand {w : Word} (h : (decode w).reserved? = none) (style : Style)
    {name : FieldName} (hname : name ∈ (Format.ofWord w).operands) :
    Operand.render style name (w.field name) = .ok (Operand.text style name (w.field name)) := by
  have horder := (Format.mem_operands.mp hname).1
  have hat : (decode w).reservedAt? name = none := List.findSome?_eq_none_iff.mp h name horder
  rw [Decoded.reservedAt?, field?_decode horder] at hat
  cases hreg : name.isRegister with
  | false => exact Operand.render_other hreg style _
  | true =>
      rw [hreg, if_pos rfl, Option.filter_some] at hat
      refine Operand.render_named hreg (w.field_lt hreg) ?_ style
      cases hres : Register.isReserved (w.field name) with
      | false => rfl
      | true => rw [hres] at hat; cases hat

theorem read?_operandText {w : Word} (h : (decode w).reserved? = none) (style : Style)
    {name : FieldName} (hname : name ∈ (Format.ofWord w).operands) :
    Operand.read? style name (Operand.text style name (w.field name)) = some (w.field name) := by
  refine Operand.read?_render ?_ (render_operand h style hname)
  rintro rfl
  exact (w.extractLsb' 0 16).isLt

theorem split_disassembled {w : Word} {mnemonic : String} (hm : ' ' ∉ mnemonic.toList)
    (h : (decode w).reserved? = none) (style : Style) :
    Line.split (mnemonic ++ " " ++ ", ".intercalate (operandTexts style w)) =
      (mnemonic, operandTexts style w) := by
  refine Line.split_line hm ?_ ?_
  · simpa [operandTexts] using (Format.ofWord w).operands_ne_nil
  · intro text htext
    obtain ⟨name, hname, rfl⟩ := List.mem_map.mp htext
    exact Operand.not_mem_render (by decide) (by decide) (by decide) (render_operand h style hname)

theorem forall₂_operandTexts {w : Word} (h : (decode w).reserved? = none) (style : Style) :
    List.Forall₂ (fun name text => ∃ value, (decode w).field? name = some value ∧
      Operand.read? style name text = some value)
      (Format.ofWord w).operands (operandTexts style w) := by
  rw [operandTexts, List.forall₂_map_right_iff, List.forall₂_same]
  intro name hname
  exact ⟨w.field name, field?_decode (Format.mem_operands.mp hname).1,
    read?_operandText h style hname⟩

/-- Words of one format with the same operand texts have the same operands. -/
theorem field_eq_of_operandTexts_eq {w w' : Word} (hformat : Format.ofWord w = Format.ofWord w')
    (h : (decode w).reserved? = none) (h' : (decode w').reserved? = none) {style : Style}
    (htexts : operandTexts style w = operandTexts style w') {name : FieldName}
    (hname : name ∈ (Format.ofWord w).operands) : w.field name = w'.field name := by
  rw [operandTexts, operandTexts, ← hformat] at htexts
  have htext := List.map_inj_left.mp htexts name hname
  have hread := read?_operandText h style hname
  rw [htext, read?_operandText h' style (hformat ▸ hname)] at hread
  exact (Option.some_inj.mp hread).symm

/-- Words that select the same operation and agree in the printed fields have the same line. -/
theorem line_congr {names : Lookup} {style : Style} {w w' : Word} {line line' : String}
    (hw : disassemble names style w = .ok line) (hw' : disassemble names style w' = .ok line')
    (hquery : w.query = w'.query)
    (hfield : ∀ name ∈ (Format.ofWord w).operands, w.field name = w'.field name) :
    line = line' := by
  obtain ⟨mnemonic, hname, -, rfl⟩ := disassemble_eq_ok hw
  obtain ⟨mnemonic', hname', -, rfl⟩ := disassemble_eq_ok hw'
  have hmnemonic : mnemonic = mnemonic' := by
    rw [hquery, hname'] at hname
    exact (Option.some_inj.mp hname).symm
  have htexts : operandTexts style w = operandTexts style w' := by
    rw [operandTexts, operandTexts, ← Format.ofWord_congr hquery]
    exact List.map_congr_left fun name hname => by rw [hfield name hname]
  rw [hmnemonic, htexts]

/-- Two lines of an unambiguous vocabulary are equal only for words that select the same operation
and agree in the printed fields. -/
theorem eq_of_line_eq {names : Lookup} (h : names.Unambiguous) {style : Style} {w w' : Word}
    {line : String} (hw : disassemble names style w = .ok line)
    (hw' : disassemble names style w' = .ok line) :
    w.query = w'.query ∧
      ∀ name ∈ (Format.ofWord w).operands, w.field name = w'.field name := by
  obtain ⟨mnemonic, hname, hfree, rfl⟩ := disassemble_eq_ok hw
  obtain ⟨mnemonic', hname', hfree', hline⟩ := disassemble_eq_ok hw'
  have hsplit := congrArg Line.split hline
  rw [split_disassembled (h.spaceless _ (Lookup.mem_vocabulary hname)) hfree,
    split_disassembled (h.spaceless _ (Lookup.mem_vocabulary hname')) hfree'] at hsplit
  obtain ⟨rfl, htexts⟩ := Prod.mk.inj hsplit
  have hquery : w.query = w'.query := h.query_eq hname hname'
  exact ⟨hquery, fun _ hmem =>
    field_eq_of_operandTexts_eq (Format.ofWord_congr hquery) hfree hfree' htexts hmem⟩

/-- The fields in the order of a format are the selecting field and the operands. -/
theorem field_order_iff {w w' : Word} (hquery : w.query = w'.query) :
    (∀ name ∈ (Format.ofWord w).order, (decode w).field? name = (decode w').field? name) ↔
      ∀ name ∈ (Format.ofWord w).operands, w.field name = w'.field name := by
  have hformat := Format.ofWord_congr hquery
  obtain ⟨hop, hfunction⟩ := Word.query_eq_iff.mp hquery
  have hfield : ∀ name ∈ (Format.ofWord w).order,
      (decode w).field? name = (decode w').field? name ↔ w.field name = w'.field name := by
    intro name hname
    rw [field?_decode hname, field?_decode (hformat ▸ hname), Option.some_inj]
  constructor
  · intro h name hname
    have horder := (Format.mem_operands.mp hname).1
    exact (hfield name horder).mp (h name horder)
  · intro h name hname
    rw [hfield name hname]
    cases hmnemonic : name.isMnemonic with
    | false => exact h name (Format.mem_operands.mpr ⟨hname, hmnemonic⟩)
    | true =>
        cases name with
        | op => exact hop
        | func =>
            -- Only formats under opcode zero show the function code.
            refine hfunction ((Format.kind_ofWord w).mp ?_)
            cases hf : Format.ofWord w with
            | r | shift => rfl
            | i | j => rw [hf] at hname; exact absurd hname (by decide)
        | rs | rt | rd | shamt | immediate | target => cases hmnemonic

theorem unambiguous_builtin : Lookup.Unambiguous Table.builtin.resolve where
  spaceless := by decide +kernel
  distinct := by decide +kernel

/-- A line of assembly reads back. Cut at the first space and then at its commas it gives the
mnemonic and one text for each operand of the format, and each text reads back as the field that it
shows. So if the mnemonics are unambiguous, as the built-in ones are, two words have the same line
exactly when they have the same opcode, under opcode zero the same function code, and the same
value in every field that the format shows. -/
theorem disassemble_reads_back (style : Style) :
    (∀ (names : Lookup) (w : Word) (line mnemonic : String),
      disassemble names style w = .ok line → names.mnemonic w = .ok mnemonic →
      ' ' ∉ mnemonic.toList →
      (Line.split line).1 = mnemonic ∧
      (Line.split line).2.length = (if Format.ofWord w = .j then 1 else 3) ∧
      List.Forall₂ (fun name text => ∃ value, (decode w).field? name = some value ∧
        Operand.read? style name text = some value)
        (Format.ofWord w).operands (Line.split line).2) ∧
    (∀ names : Lookup, names.Unambiguous → ∀ (w w' : Word) (line line' : String),
      disassemble names style w = .ok line → disassemble names style w' = .ok line' →
      (line = line' ↔ w.opcode = w'.opcode ∧ (w.opcode = 0 → w.function = w'.function) ∧
        ∀ name ∈ (Format.ofWord w).order, (decode w).field? name = (decode w').field? name)) ∧
    Lookup.Unambiguous Table.builtin.resolve := by
  refine ⟨?_, ?_, unambiguous_builtin⟩
  · intro names w line mnemonic hline hmnemonic hspace
    obtain ⟨name, hname, hfree, rfl⟩ := disassemble_eq_ok hline
    rw [Lookup.mnemonic, hname] at hmnemonic
    obtain rfl : name = mnemonic := Except.ok.inj hmnemonic
    have hforall := forall₂_operandTexts hfree style
    rw [split_disassembled hspace hfree]
    refine ⟨rfl, ?_, hforall⟩
    rw [← hforall.length_eq]
    cases Format.ofWord w <;> rfl
  · intro names hnames w w' line line' hw hw'
    rw [← and_assoc, ← Word.query_eq_iff]
    constructor
    · rintro rfl
      obtain ⟨hquery, hfield⟩ := eq_of_line_eq hnames hw hw'
      exact ⟨hquery, (field_order_iff hquery).mpr hfield⟩
    · rintro ⟨hquery, hfield⟩
      exact line_congr hw hw' hquery ((field_order_iff hquery).mp hfield)

/-- A negative immediate reads back, and two additions that differ in the shift amount alone, which
no addition shows, have one line. -/
theorem disassemble_reads_back_lines :
    let names : Lookup := Table.builtin.resolve
    (disassemble names {} 0x2408FFFF#32 = .ok "addiu $t0, $zero, -1" ∧
      (Line.split "addiu $t0, $zero, -1").1 = "addiu") ∧
    disassemble names {} 0x012A4020#32 = .ok "add $t0, $t1, $t2" ∧
    disassemble names {} 0x012A4060#32 = .ok "add $t0, $t1, $t2" ∧
    ∀ name ∈ (Format.ofWord 0x012A4020#32).order,
      (decode 0x012A4020#32).field? name = (decode 0x012A4060#32).field? name := by
  intro names
  have haddiu : disassemble names {} 0x2408FFFF#32 = .ok "addiu $t0, $zero, -1" := by
    decide +kernel
  have hname : names.mnemonic 0x2408FFFF#32 = .ok "addiu" := by decide +kernel
  have hadd : disassemble names {} 0x012A4020#32 = .ok "add $t0, $t1, $t2" := by decide +kernel
  have hadd' : disassemble names {} 0x012A4060#32 = .ok "add $t0, $t1, $t2" := by decide +kernel
  obtain ⟨hread, hsame, hbuiltin⟩ := disassemble_reads_back {}
  exact ⟨⟨haddiu, (hread names _ _ _ haddiu hname (by decide)).1⟩, hadd, hadd',
    ((hsame names hbuiltin _ _ _ _ hadd hadd').mp rfl).2.2⟩

end MipsWords
