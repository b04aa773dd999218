import MipsWords.Disassembly
import MipsWords.Proofs.Decoding
import MipsWords.Proofs.Registers

/-!
# What disassembly comes to

The line is written field by field and the first failure ends the work. Written
out in one piece (`disassemble_eq`) the outcome depends on two questions only:
has the word's one query an answer, and is one of the printed registers
reserved? The first question is asked first in every format.

The loop is followed by one lemma over a list of operands, whose invariant is
that the draft grows by the texts of the fields passed so far. The query is read
off the raw bits and the order of fields off the format, so that the two belong
together is a fact about formats: a query decides the format of its words.
-/

namespace MipsWords

/-! ## Queries and formats -/

theorem Word.query_eq_iff {w w' : Word} :
    w.query = w'.query ↔ w.opcode = w'.opcode ∧ (w.opcode = 0 → w.function = w'.function) := by
  rw [Word.query, Word.query]
  by_cases h : w.opcode = 0 <;> by_cases h' : w'.opcode = 0
  · simp [h, h']
  · simp [h, h', eq_comm (a := 0)]
  · simp [h, h']
  · simp [h, h']

theorem Format.ofWord_congr {w w' : Word} (h : w.query = w'.query) : ofWord w = ofWord w' := by
  obtain ⟨hop, hfunction⟩ := Word.query_eq_iff.mp h
  rw [ofWord, ofWord, ← hop]
  split
  · next hzero => rw [hfunction hzero]
  · rfl

theorem Format.kind_ofWord (w : Word) : (ofWord w).kind = .r ↔ w.opcode = 0 := by
  rw [ofWord, specialOpcode]
  split_ifs <;> simp [*, kind]

/-- What a word asks for follows from its format. -/
theorem Word.query_eq_of_kind (w : Word) :
    w.query = if (Format.ofWord w).kind = .r then ⟨0, some w.function⟩ else ⟨w.opcode, none⟩ := by
  rw [Word.query]
  simp only [Format.kind_ofWord]
  split
  · next h => rw [h]
  · rfl

/-! ## Printed fields -/

namespace Format

theorem has_of_mem_order {f : Format} {name : FieldName} (h : name ∈ f.order) :
    f.has name = true := by
  revert name
  cases f <;> decide

/-- Every order begins with the mnemonic, which is no register, and goes on with the operands. -/
theorem order_eq (f : Format) : ∃ name, f.order = name :: f.operands ∧
    name.isMnemonic = true ∧ name.isRegister = false := by
  cases f <;> exact ⟨_, rfl, rfl, rfl⟩

theorem mem_operands {f : Format} {name : FieldName} :
    name ∈ f.operands ↔ name ∈ f.order ∧ name.isMnemonic = false := by
  rw [operands, List.mem_filter, Bool.not_eq_true']

theorem operands_ne_nil (f : Format) : f.operands ≠ [] := by
  cases f <;> decide

end Format

theorem field?_decode {w : Word} {name : FieldName} (h : name ∈ (Format.ofWord w).order) :
    (decode w).field? name = some (w.field name) :=
  (Format.find?_split _ w name).trans (Format.extract?_eq_field (Format.has_of_mem_order h) w)

theorem Word.field_lt {name : FieldName} (h : name.isRegister = true) (w : Word) :
    w.field name < 32 := by
  cases name with
  | rs => exact (w.extractLsb' 21 5).isLt
  | rt => exact (w.extractLsb' 16 5).isLt
  | rd => exact (w.extractLsb' 11 5).isLt
  | op | shamt | func | immediate | target => cases h

/-! ## One operand -/

/-- The text of an operand that has one. -/
def Operand.text (style : Style) (name : FieldName) (value : Nat) : String :=
  (Operand.render style name value).toOption.getD ""

/-- The value of a printed register field, if it is reserved. -/
def Decoded.reservedAt? (d : Decoded) (name : FieldName) : Option Nat :=
  if name.isRegister then (d.field? name).filter Register.isReserved else none

/-- The first reserved value among the printed register fields. -/
def Decoded.reserved? (d : Decoded) : Option Nat := d.format.order.findSome? d.reservedAt?

theorem Operand.render_register {name : FieldName} (h : name.isRegister = true) (style : Style)
    (value : Nat) : Operand.render style name value = Register.render value := by
  cases name with
  | rs | rt | rd => rfl
  | op | shamt | func | immediate | target => cases h

theorem Operand.render_other {name : FieldName} (h : name.isRegister = false) (style : Style)
    (value : Nat) : Operand.render style name value = .ok (Operand.text style name value) := by
  cases name with
  | rs | rt | rd => cases h
  | op | shamt | func | immediate | target => rfl

theorem Operand.render_named {name : FieldName} {value : Nat} (h : name.isRegister = true)
    (hlt : value < 32) (hfree : Register.isReserved value = false) (style : Style) :
    Operand.render style name value = .ok (Operand.text style name value) := by
  obtain ⟨r, rfl⟩ := Register.exists_code hlt hfree
  rw [Operand.text, render_register h, Register.render_code]
  rfl

/-- Writing a field fails for a reserved register and otherwise adds the field's text. -/
theorem Draft.write_eq {names : Lookup} {style : Style} {d : Decoded} {name : FieldName}
    {value : Nat} (hfield : d.field? name = some value) (hoperand : name.isMnemonic = false)
    (hlt : name.isRegister = true → value < 32) (draft : Draft) :
    draft.write names style d name =
      match d.reservedAt? name with
      | some code => .error (.registerCode code)
      | none => .ok { draft with operands := draft.operands ++ [Operand.text style name value] } := by
  rw [Draft.write, hfield, Decoded.reservedAt?, hfield]
  simp only [hoperand, Bool.false_eq_true, if_false]
  cases hreg : name.isRegister with
  | false =>
      rw [Operand.render_other hreg]
      rfl
  | true =>
      rw [if_pos rfl, Option.filter_some]
      cases hres : Register.isReserved value with
      | false =>
          rw [Operand.render_named hreg (hlt hreg) hres]
          rfl
      | true =>
          rw [Operand.render_register hreg, Register.render_reserved hres]
          rfl

/-! ## The loop -/

/-- Writing a run of operands fails for the first reserved register among them and otherwise adds
their texts in order. -/
theorem Draft.foldlM_write {names : Lookup} {style : Style} {d : Decoded}
    {value : FieldName → Nat} {operands : List FieldName}
    (hfield : ∀ name ∈ operands, d.field? name = some (value name))
    (hoperand : ∀ name ∈ operands, name.isMnemonic = false)
    (hlt : ∀ name ∈ operands, name.isRegister = true → value name < 32) (draft : Draft) :
    operands.foldlM (Draft.write names style d) draft =
      match operands.findSome? d.reservedAt? with
      | some code => .error (.registerCode code)
      | none => .ok { draft with
          operands := draft.operands ++
            operands.map fun name => Operand.text style name (value name) } := by
  induction operands generalizing draft with
  | nil => rw [List.map_nil, List.append_nil]; rfl
  | cons name rest ih =>
      have hmem : name ∈ name :: rest := List.mem_cons_self ..
      rw [List.foldlM_cons, List.findSome?_cons,
        Draft.write_eq (hfield name hmem) (hoperand name hmem) (hlt name hmem)]
      cases d.reservedAt? name with
      | some code => rfl
      | none =>
          simp only [List.map_cons]
          refine (ih (fun n hn => hfield n (List.mem_cons_of_mem _ hn))
            (fun n hn => hoperand n (List.mem_cons_of_mem _ hn))
            (fun n hn => hlt n (List.mem_cons_of_mem _ hn)) _).trans ?_
          simp only [List.append_assoc, List.singleton_append]

/-- The texts of the operands of a word, in their order. -/
def operandTexts (style : Style) (w : Word) : List String :=
  (Format.ofWord w).operands.map fun name => Operand.text style name (w.field name)

/-- Disassembly in one piece: the mnemonic is missing, or a printed register is reserved, or there
is a line. -/
theorem disassemble_eq (names : Lookup) (style : Style) (w : Word) :
    disassemble names style w =
      match names w.query with
      | none => .error (.unknownMnemonic w.query)
      | some mnemonic =>
        match (decode w).reserved? with
        | some code => .error (.registerCode code)
        | none => .ok (mnemonic ++ " " ++ ", ".intercalate (operandTexts style w)) := by
  obtain ⟨name, horder, hmnemonic, hreg⟩ := (Format.ofWord w).order_eq
  have hfield : (decode w).field? name = some (w.field name) :=
    field?_decode (horder ▸ List.mem_cons_self ..)
  have hreserved : (decode w).reserved? =
      (Format.ofWord w).operands.findSome? (decode w).reservedAt? := by
    show (Format.ofWord w).order.findSome? _ = _
    rw [horder, List.findSome?_cons, Decoded.reservedAt?, if_neg (by rw [hreg]; decide)]
  have hloop : ∀ draft, (Format.ofWord w).operands.foldlM (Draft.write names style (decode w)) draft =
      _ := Draft.foldlM_write (fun n hn => field?_decode (Format.mem_operands.mp hn).1)
        (fun n hn => (Format.mem_operands.mp hn).2) (fun n _ hn => w.field_lt hn)
  show ((Format.ofWord w).order.foldlM (Draft.write names style (decode w)) {} >>= fun draft =>
    pure draft.text) = _
  rw [horder, List.foldlM_cons, Draft.write, hfield]
  simp only [hmnemonic, if_true]
  rw [show (decode w).raw = w from rfl, Lookup.mnemonic]
  cases names w.query with
  | none => rfl
  | some mnemonic =>
      show ((Format.ofWord w).operands.foldlM _ (Draft.mk mnemonic []) >>= _) = _
      rw [hloop, hreserved]
      cases (Format.ofWord w).operands.findSome? (decode w).reservedAt? with
      | some code => rfl
      | none =>
          have htexts : operandTexts style w ≠ [] := by
            simpa [operandTexts] using (Format.ofWord w).operands_ne_nil
          show Except.ok (Draft.text ⟨mnemonic, operandTexts style w⟩) = _
          rw [Draft.text, List.isEmpty_eq_false_iff.mpr htexts]
          rfl

/-! ## What the outcome does not depend on -/

/-- Two styles write the operands of a format alike. -/
def Style.AgreeOn (f : Format) (style style' : Style) : Prop :=
  match f with
  | .r | .shift => True
  | .i => style.immediate = style'.immediate
  | .j => style.target = style'.target

theorem Operand.text_congr {f : Format} {style style' : Style} {name : FieldName}
    (h : style.AgreeOn f style') (hname : name ∈ f.operands) (value : Nat) :
    Operand.text style name value = Operand.text style' name value := by
  cases name with
  | rs | rt | rd | shamt | op | func => rfl
  | immediate =>
      cases f with
      | i =>
          have heq : style.immediate = style'.immediate := h
          rw [Operand.text, Operand.text, Operand.render, Operand.render, heq]
      | r | shift | j => exact absurd hname (by decide)
  | target =>
      cases f with
      | j =>
          have heq : style.target = style'.target := h
          rw [Operand.text, Operand.text, Operand.render, Operand.render, heq]
      | r | shift | i => exact absurd hname (by decide)

theorem operandTexts_congr {style style' : Style} {w : Word}
    (h : style.AgreeOn (Format.ofWord w) style') :
    operandTexts style w = operandTexts style' w :=
  List.map_congr_left fun _ hname => Operand.text_congr h hname _

theorem reserved?_congr {w w' : Word} (hquery : w'.query = w.query)
    (hfield : ∀ name ∈ (Format.ofWord w).order, name.isRegister = true →
      w'.field name = w.field name) :
    (decode w').reserved? = (decode w).reserved? := by
  have hformat : Format.ofWord w' = Format.ofWord w := Format.ofWord_congr hquery
  have hat : ∀ name ∈ (Format.ofWord w).order,
      (decode w').reservedAt? name = (decode w).reservedAt? name := by
    intro name hname
    rw [Decoded.reservedAt?, Decoded.reservedAt?, field?_decode hname,
      field?_decode (hformat ▸ hname)]
    split
    · next hreg => rw [hfield name hname hreg]
    · rfl
  show (Format.ofWord w').order.findSome? _ = (Format.ofWord w).order.findSome? _
  rw [hformat]
  generalize (Format.ofWord w).order = order at hat ⊢
  induction order with
  | nil => rfl
  | cons name rest ih =>
      rw [List.findSome?_cons, List.findSome?_cons, hat name (List.mem_cons_self ..),
        ih fun n hn => hat n (List.mem_cons_of_mem _ hn)]

/-- The outcome of disassembly. A word asks its table one query, which its format and its selecting
bits give. If the table has no answer, that is the error; otherwise the error is the first reserved
register among the printed ones; otherwise there is a line. The style has no part in failures, nor
have the bits of the word that are neither selecting nor a printed register, and the line depends on
no other part of the style than the radix that the format uses. -/
theorem disassemble_outcome (style : Style) (w : Word) :
    w.query = (if (Format.ofWord w).kind = .r then ⟨0, some w.function⟩ else ⟨w.opcode, none⟩) ∧
    (∀ names names' : Lookup, names w.query = names' w.query →
      disassemble names style w = disassemble names' style w) ∧
    ∀ names : Lookup,
      (∀ q, disassemble names style w = .error (.unknownMnemonic q) ↔
        names w.query = none ∧ q = w.query) ∧
      (∀ code, disassemble names style w = .error (.registerCode code) ↔
        names w.query ≠ none ∧ (decode w).reserved? = some code) ∧
      ((∃ line, disassemble names style w = .ok line) ↔
        names w.query ≠ none ∧ (decode w).reserved? = none) ∧
      (∀ (style' : Style) (w' : Word), w'.query = w.query →
        (∀ name ∈ (Format.ofWord w).order, name.isRegister = true →
          w'.field name = w.field name) →
        ∀ e, disassemble names style' w' = .error e ↔ disassemble names style w = .error e) ∧
      (∀ style' : Style, style.AgreeOn (Format.ofWord w) style' →
        disassemble names style w = disassemble names style' w) := by
  refine ⟨w.query_eq_of_kind, ?_, fun names => ⟨?_, ?_, ?_, ?_, ?_⟩⟩
  · intro names names' h
    rw [disassemble_eq, disassemble_eq, h]
  · intro q
    rw [disassemble_eq]
    cases names w.query with
    | none => simp [eq_comm]
    | some m => cases (decode w).reserved? <;> simp
  · intro code
    rw [disassemble_eq]
    cases names w.query with
    | none => simp
    | some m => cases (decode w).reserved? <;> simp
  · rw [disassemble_eq]
    cases names w.query with
    | none => simp
    | some m => cases (decode w).reserved? <;> simp
  · intro style' w' hquery hfield e
    rw [disassemble_eq, disassemble_eq, hquery, reserved?_congr hquery hfield]
    cases names w.query with
    | none => rfl
    | some m => cases (decode w).reserved? <;> simp
  · intro style' h
    rw [disassemble_eq, disassemble_eq, operandTexts_congr h]

/-- A variable shift whose unprinted destination is reserved, beside the same shift without it. -/
theorem disassemble_outcome_unprinted :
    (Table.builtin.resolve (Word.query 0x0001D144#32) = some "sllv" ∧
      disassemble (fun _ => some "sllv") {} 0x0001D144#32 =
        disassemble Table.builtin.resolve {} 0x0001D144#32) ∧
    (∀ e, disassemble Table.builtin.resolve {} 0x00010144#32 = .error e ↔
      disassemble Table.builtin.resolve ⟨.hex, .decimal⟩ 0x0001D144#32 = .error e) ∧
    disassemble Table.builtin.resolve {} 0x0001D144#32 =
      disassemble Table.builtin.resolve ⟨.hex, .decimal⟩ 0x0001D144#32 := by
  have hname : Table.builtin.resolve (Word.query 0x0001D144#32) = some "sllv" := by decide +kernel
  obtain ⟨-, hnames, hrest⟩ := disassemble_outcome {} 0x0001D144#32
  obtain ⟨-, -, -, -, hstyle⟩ := hrest Table.builtin.resolve
  obtain ⟨-, -, -, hsame, -⟩ :=
    (disassemble_outcome ⟨.hex, .decimal⟩ 0x0001D144#32).2.2 Table.builtin.resolve
  exact ⟨⟨hname, hnames _ _ hname.symm⟩, hsame {} 0x00010144#32 (by decide) (by decide),
    hstyle ⟨.hex, .decimal⟩ trivial⟩

end MipsWords
