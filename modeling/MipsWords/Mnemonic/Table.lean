import MipsWords.Error
import MipsWords.Mnemonic.Names
import MipsWords.Word.Basic

/-!
# Tables of mnemonics

Anything that answers queries can name instructions; a `Table` does so from two
maps, one by opcode and one, for opcode zero, by function code. What a word asks
is fixed by its bits alone (`Word.query`), so the entry that a table may hold
for opcode zero itself is never asked for.

The built-in table has the mnemonics of the integer instructions of MIPS I.
-/

namespace MipsWords

/-- Anything that names instructions: the mnemonic for a query, if it has one. -/
abbrev Lookup := Query → Option String

/-- What a word asks for: its opcode and, if that is zero, its function code. -/
def Word.query (w : Word) : Query :=
  if w.opcode = 0 then ⟨w.opcode, some w.function⟩ else ⟨w.opcode, none⟩

/-- The mnemonic of a word, or an error with the query that had no answer. -/
def Lookup.mnemonic (names : Lookup) (w : Word) : Except Error String :=
  match names w.query with
  | some name => .ok name
  | none => .error (.unknownMnemonic w.query)

/-- A table of mnemonics: the names of opcodes, and those of function codes under opcode zero. -/
structure Table where
  opcodes : Names
  functions : Names
  deriving DecidableEq, Repr, Inhabited

namespace Table

/-- The table that names nothing. -/
def empty : Table := ⟨.empty, .empty⟩

/-- Names the low six bits of an opcode. -/
def insertOpcode (t : Table) (code : Nat) (name : String) : Table :=
  { t with opcodes := t.opcodes.insert code name }

/-- Names the low six bits of a function code. -/
def insertFunction (t : Table) (code : Nat) (name : String) : Table :=
  { t with functions := t.functions.insert code name }

/-- The answer to a query, which takes its codes as they are. -/
def resolve (t : Table) (q : Query) : Option String :=
  match q.function? with
  | some code => t.functions.get? code
  | none => t.opcodes.get? q.opcode

/-- The mnemonic of a word in the table. -/
def mnemonic (t : Table) (w : Word) : Except Error String := Lookup.mnemonic t.resolve w

/-- The number of entries of both maps. -/
def size (t : Table) : Nat := t.opcodes.size + t.functions.size

/-- Whether the table names nothing. -/
def isEmpty (t : Table) : Bool := t.opcodes.isEmpty && t.functions.isEmpty

/-! ## The built-in table -/

/-- The primary opcodes, without the one that function codes tell apart. -/
def builtinOpcodes : List (Nat × String) := [
  (0b000010, "j"), (0b000011, "jal"),
  (0b000100, "beq"), (0b000101, "bne"), (0b000110, "blez"), (0b000111, "bgtz"),
  (0b001000, "addi"), (0b001001, "addiu"), (0b001010, "slti"), (0b001011, "sltiu"),
  (0b001100, "andi"), (0b001101, "ori"), (0b001110, "xori"), (0b001111, "lui"),
  (0b100000, "lb"), (0b100001, "lh"), (0b100011, "lw"), (0b100100, "lbu"), (0b100101, "lhu"),
  (0b101000, "sb"), (0b101001, "sh"), (0b101011, "sw")]

/-- The function codes under opcode zero. -/
def builtinFunctions : List (Nat × String) := [
  (0b000000, "sll"), (0b000010, "srl"), (0b000011, "sra"),
  (0b000100, "sllv"), (0b000110, "srlv"), (0b000111, "srav"),
  (0b001000, "jr"), (0b001001, "jalr"), (0b001100, "syscall"), (0b001101, "break"),
  (0b010000, "mfhi"), (0b010001, "mthi"), (0b010010, "mflo"), (0b010011, "mtlo"),
  (0b011000, "mult"), (0b011001, "multu"), (0b011010, "div"), (0b011011, "divu"),
  (0b100000, "add"), (0b100001, "addu"), (0b100010, "sub"), (0b100011, "subu"),
  (0b100100, "and"), (0b100101, "or"), (0b100110, "xor"), (0b100111, "nor"),
  (0b101010, "slt"), (0b101011, "sltu")]

/-- The table that is used unless another is named. -/
def builtin : Table :=
  ⟨Names.empty.insertAll builtinOpcodes, Names.empty.insertAll builtinFunctions⟩

/-- Whether the table has the entries of the built-in one. -/
def isBuiltin (t : Table) : Bool := t == builtin

end Table

end MipsWords
