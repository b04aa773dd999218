import MipsWords.Proofs.Outcome
import MipsWords.Proofs.TableRuns

/-!
# What an insertion changes

A word asks its table for one cell: its function code under opcode zero, and its
opcode otherwise. An insertion writes one cell, the one of its code modulo 64.
So after an insertion a word either asks for the cell that was written and has
the new name, or asks for another one and is treated as before, and the two
insertions need no separate argument.

No word asks for the cell of opcode zero, since under that opcode the function
code is asked for. Every other code of six bits is asked for by some word, which
makes the converse: tables that name all words alike agree in every other cell.
For codes from 64 on that takes the bound of the tables that can come about.
-/

namespace MipsWords

/-! ## Cells -/

/-- The place in a table that a word asks for. -/
def Word.cell (w : Word) : Cell :=
  if w.opcode = 0 then .function w.function else .opcode w.opcode

/-- What a table says at a place. -/
def Meaning.at? (a : Meaning) : Cell → Option String
  | .opcode code => a.opcodes code
  | .function code => a.functions code

theorem Meaning.at?_write (a : Meaning) (c other : Cell) (name : String) :
    (a.write c name).at? other = if other = c then some name else a.at? other := by
  cases c <;> cases other <;> simp [write, at?, Function.update_apply]

theorem Word.cell_eq_function_iff {w : Word} {code : Nat} :
    w.cell = .function code ↔ w.opcode = 0 ∧ w.function = code := by
  rw [cell]
  split <;> simp [*]

theorem Word.cell_eq_opcode_iff {w : Word} {code : Nat} :
    w.cell = .opcode code ↔ w.opcode = code ∧ w.opcode ≠ 0 := by
  rw [cell]
  split <;> simp [*]

/-- A place that some word asks for. -/
def Cell.Asked : Cell → Prop
  | .opcode code => code ≠ 0 ∧ code < 64
  | .function code => code < 64

/-- A word that asks for a place. -/
def Cell.word : Cell → Word
  | .opcode code => BitVec.ofNat 32 (code * 2 ^ 26)
  | .function code => BitVec.ofNat 32 code

theorem Word.opcode_ofNat (n : Nat) : Word.opcode (BitVec.ofNat 32 n) = n / 2 ^ 26 % 64 := by
  rw [opcode, BitVec.extractLsb'_toNat, BitVec.toNat_ofNat, Nat.shiftRight_eq_div_pow]
  omega

theorem Word.function_ofNat (n : Nat) : Word.function (BitVec.ofNat 32 n) = n % 64 := by
  rw [function, BitVec.extractLsb'_toNat, BitVec.toNat_ofNat, Nat.shiftRight_zero]
  exact Nat.mod_mod_of_dvd n (by decide)

theorem Cell.cell_word {c : Cell} (h : c.Asked) : c.word.cell = c := by
  cases c with
  | opcode code =>
      obtain ⟨hne, hlt⟩ := h
      have hopcode : (Cell.opcode code).word.opcode = code := by
        rw [word, Word.opcode_ofNat, Nat.mul_div_cancel _ (Nat.two_pow_pos 26),
          Nat.mod_eq_of_lt hlt]
      exact Word.cell_eq_opcode_iff.mpr ⟨hopcode, by rwa [hopcode]⟩
  | function code =>
      have hlt : code < 64 := h
      have hzero : (Cell.function code).word.opcode = 0 := by
        rw [word, Word.opcode_ofNat, Nat.div_eq_of_lt (hlt.trans (by decide)), Nat.zero_mod]
      have hfunction : (Cell.function code).word.function = code := by
        rw [word, Word.function_ofNat, Nat.mod_eq_of_lt hlt]
      exact Word.cell_eq_function_iff.mpr ⟨hzero, hfunction⟩

theorem Word.asked_cell (w : Word) : w.cell.Asked := by
  rw [cell]
  split
  · exact (w.extractLsb' 0 6).isLt
  · next h => exact ⟨h, (w.extractLsb' 26 6).isLt⟩

namespace Table

theorem resolve_query (t : Table) (w : Word) : t.resolve w.query = t.meaning.at? w.cell := by
  rw [Word.query, Word.cell]
  split <;> rfl

/-! ## One insertion -/

/-- Two tables name a word alike and write the same line for it in every style, or fail alike. -/
structure Alike (t u : Table) (w : Word) : Prop where
  mnemonic : t.mnemonic w = u.mnemonic w
  line : ∀ style, disassemble t.resolve style w = disassemble u.resolve style w

theorem alike_of_resolve {t u : Table} {w : Word} (h : t.resolve w.query = u.resolve w.query) :
    t.Alike u w where
  mnemonic := by rw [Table.mnemonic, Table.mnemonic, Lookup.mnemonic, Lookup.mnemonic, h]
  line style := by rw [disassemble_eq, disassemble_eq, h]

variable {t u : Table} {c : Cell} {name : String} {w : Word}

theorem mnemonic_written (h : u.meaning = t.meaning.write c name) (hw : w.cell = c) :
    u.mnemonic w = .ok name := by
  rw [Table.mnemonic, Lookup.mnemonic, resolve_query, h, Meaning.at?_write, if_pos hw]

theorem alike_unwritten (h : u.meaning = t.meaning.write c name) (hw : w.cell ≠ c) :
    u.Alike t w :=
  alike_of_resolve (by rw [resolve_query, resolve_query, h, Meaning.at?_write, if_neg hw])

theorem meaning_insertFunction (t : Table) (code : Nat) (name : String) :
    (t.insertFunction code name).meaning = t.meaning.write (.function (code % 64)) name :=
  t.meaning_apply (.function code name)

theorem meaning_insertOpcode (t : Table) (code : Nat) (name : String) :
    (t.insertOpcode code name).meaning = t.meaning.write (.opcode (code % 64)) name :=
  t.meaning_apply (.opcode code name)

/-! ## Tables that name all words alike -/

/-- A table that a run of edits can end in. -/
def Reachable (t : Table) : Prop := ∃ start a edits, Starts start a ∧ t = start.applyAll edits

theorem Reachable.bounded (h : t.Reachable) : t.Bounded := by
  obtain ⟨start, a, edits, hstart, rfl⟩ := h
  exact hstart.spec.2.applyAll edits

theorem mnemonic_eq_iff : t.mnemonic w = u.mnemonic w ↔ t.meaning.at? w.cell = u.meaning.at? w.cell := by
  rw [Table.mnemonic, Table.mnemonic, Lookup.mnemonic, Lookup.mnemonic, resolve_query, resolve_query]
  cases t.meaning.at? w.cell <;> cases u.meaning.at? w.cell <;> simp

theorem forall_mnemonic_eq_iff :
    (∀ w, t.mnemonic w = u.mnemonic w) ↔ ∀ c : Cell, c.Asked → t.meaning.at? c = u.meaning.at? c := by
  constructor
  · intro h c hc
    have hword := mnemonic_eq_iff.mp (h c.word)
    rwa [Cell.cell_word hc] at hword
  · exact fun h w => mnemonic_eq_iff.mpr (h w.cell w.asked_cell)

theorem asked_agree_iff (ht : t.Bounded) (hu : u.Bounded) :
    (∀ c : Cell, c.Asked → t.meaning.at? c = u.meaning.at? c) ↔
      t.functions = u.functions ∧
        t.opcodes.entries.filter (·.1 ≠ 0) = u.opcodes.entries.filter (·.1 ≠ 0) := by
  rw [Names.filter_entries_eq_iff (fun code => decide (code ≠ 0))]
  constructor
  · intro h
    refine ⟨Names.ext fun code => ?_, fun code hcode => ?_⟩
    · rcases Nat.lt_or_ge code 64 with hlt | hge
      · exact h (.function code) hlt
      · rw [ht.2 code hge, hu.2 code hge]
    · rcases Nat.lt_or_ge code 64 with hlt | hge
      · exact h (.opcode code) ⟨of_decide_eq_true hcode, hlt⟩
      · rw [ht.1 code hge, hu.1 code hge]
  · rintro ⟨hfunctions, hopcodes⟩ c hc
    cases c with
    | function code => exact congrArg (·.get? code) hfunctions
    | opcode code => exact hopcodes code (decide_eq_true hc.1)

/-- An insertion changes the words that ask for its code and no others. The words under opcode zero
with the function code, or those with the opcode if that is not zero, have the new name; all others
are named and written as before, in every style, failures included. An insertion for opcode zero
changes no word. So of the tables that can come about two name all words alike exactly if they hold
the same function codes and the same opcodes but zero. -/
theorem insertion_frame :
    (∀ (t : Table) (code : Nat) (name : String) (w : Word),
      (w.opcode = 0 ∧ w.function = code % 64 →
        (t.insertFunction code name).mnemonic w = .ok name) ∧
      (¬(w.opcode = 0 ∧ w.function = code % 64) → (t.insertFunction code name).Alike t w) ∧
      (w.opcode = code % 64 ∧ w.opcode ≠ 0 → (t.insertOpcode code name).mnemonic w = .ok name) ∧
      (¬(w.opcode = code % 64 ∧ w.opcode ≠ 0) → (t.insertOpcode code name).Alike t w) ∧
      (code % 64 = 0 → (t.insertOpcode code name).Alike t w)) ∧
    ∀ t u : Table, t.Reachable → u.Reachable →
      ((∀ w, t.mnemonic w = u.mnemonic w) ↔ t.functions = u.functions ∧
        t.opcodes.entries.filter (·.1 ≠ 0) = u.opcodes.entries.filter (·.1 ≠ 0)) := by
  refine ⟨fun t code name w => ⟨?_, ?_, ?_, ?_, ?_⟩, fun t u ht hu => ?_⟩
  · intro hw
    exact mnemonic_written (t.meaning_insertFunction code name) (Word.cell_eq_function_iff.mpr hw)
  · intro hw
    exact alike_unwritten (t.meaning_insertFunction code name)
      (mt Word.cell_eq_function_iff.mp hw)
  · intro hw
    exact mnemonic_written (t.meaning_insertOpcode code name) (Word.cell_eq_opcode_iff.mpr hw)
  · intro hw
    exact alike_unwritten (t.meaning_insertOpcode code name) (mt Word.cell_eq_opcode_iff.mp hw)
  · intro hzero
    refine alike_unwritten (t.meaning_insertOpcode code name) fun hw => ?_
    obtain ⟨hopcode, hne⟩ := Word.cell_eq_opcode_iff.mp hw
    exact hne (hopcode.trans hzero)
  · exact forall_mnemonic_eq_iff.trans (asked_agree_iff ht.bounded hu.bounded)

/-- The function code and the opcode 32 in the built-in table, and its unused opcode zero. -/
theorem insertion_frame_builtin :
    (Word.opcode 0x012A4020#32 = 0 ∧ Word.function 0x012A4020#32 = 96 % 64) ∧
    (builtin.insertFunction 96 "plus").mnemonic 0x012A4020#32 = .ok "plus" ∧
    (builtin.insertOpcode 96 "load").Alike builtin 0x012A4020#32 ∧
    (Word.opcode 0x80000000#32 = 96 % 64 ∧ Word.opcode 0x80000000#32 ≠ 0) ∧
    (builtin.insertOpcode 96 "load").mnemonic 0x80000000#32 = .ok "load" ∧
    (builtin.insertFunction 96 "plus").Alike builtin 0x80000000#32 ∧
    (builtin.insertOpcode 64 "special").Reachable ∧ builtin.Reachable ∧
    (builtin.insertOpcode 64 "special").opcodes.entries.filter (·.1 ≠ 0) =
      builtin.opcodes.entries.filter (·.1 ≠ 0) := by
  have hadd : Word.opcode 0x012A4020#32 = 0 ∧ Word.function 0x012A4020#32 = 96 % 64 := by decide
  have hload : Word.opcode 0x80000000#32 = 96 % 64 ∧ Word.opcode 0x80000000#32 ≠ 0 := by decide
  have hspecial : (builtin.insertOpcode 64 "special").Reachable :=
    ⟨builtin, .builtin, [.opcode 64 "special"], .builtin, rfl⟩
  have hbuiltin : builtin.Reachable := ⟨builtin, .builtin, [], .builtin, rfl⟩
  obtain ⟨hinsert, hsame⟩ := insertion_frame
  have hall : ∀ w, (builtin.insertOpcode 64 "special").mnemonic w = builtin.mnemonic w :=
    fun w => ((hinsert builtin 64 "special" w).2.2.2.2 rfl).mnemonic
  exact ⟨hadd, (hinsert builtin 96 "plus" _).1 hadd,
    (hinsert builtin 96 "load" _).2.2.2.1 (by decide), hload,
    (hinsert builtin 96 "load" _).2.2.1 hload, (hinsert builtin 96 "plus" _).2.1 (by decide),
    hspecial, hbuiltin, ((hsame _ _ hspecial hbuiltin).mp hall).2⟩

end Table

end MipsWords
