import MipsWords.Field
import MipsWords.Word.Basic

/-!
# Formats

A word has one of three layouts: register (R), immediate (I) or jump (J).
Shifts share the layout of R bit for bit and are written with their operands in
another order, so they are a fourth format.

The opcode decides, and under opcode zero the function code tells shifts from
the rest. Every word has exactly one format: what is neither under opcode zero
nor a jump is an I word.

A layout lists its fields from the most significant bit, and the place of a
field follows from the widths before it.
-/

namespace MipsWords

/-- The bits that a field of a given name has, in every layout with such a field. -/
def Word.field (w : Word) : FieldName → Nat
  | .op => w.opcode
  | .rs => w.rs
  | .rt => w.rt
  | .rd => w.rd
  | .shamt => w.shamt
  | .func => w.function
  | .immediate => w.immediate
  | .target => w.target

/-- A layout by its letter. -/
inductive Kind where
  | r | i | j
  deriving DecidableEq, Repr, Inhabited

/-- The letter of a layout. -/
def Kind.text : Kind → String
  | r => "R" | i => "I" | j => "J"

/-- A layout with an order of operands. Shifts are laid out as R words are. -/
inductive Format where
  | r | shift | i | j
  deriving DecidableEq, Repr, Inhabited

/-- Opcode zero, under which the function code selects the operation. -/
def specialOpcode : Nat := 0

/-- The opcodes of the jumps with a target in the word. -/
def jumpOpcodes : List Nat := [0b000010, 0b000011]

/-- The function codes of the shifts, by a fixed amount and by a register's value. -/
def shiftFunctions : List Nat := [0b000000, 0b000100, 0b000011, 0b000111, 0b000010, 0b000110]

namespace Format

/-- The formats. -/
def all : List Format := [r, shift, i, j]

/-- The name of a format, as it stands in front of a listing. -/
def name : Format → String
  | r => "R" | shift => "shift" | i => "I" | j => "J"

/-- The layout of a format. -/
def kind : Format → Kind
  | r | shift => .r
  | i => .i
  | j => .j

/-- The fields of the format from the most significant bit. -/
def fields : Format → List Field
  | r | shift => [⟨.op, 6⟩, ⟨.rs, 5⟩, ⟨.rt, 5⟩, ⟨.rd, 5⟩, ⟨.shamt, 5⟩, ⟨.func, 6⟩]
  | i => [⟨.op, 6⟩, ⟨.rs, 5⟩, ⟨.rt, 5⟩, ⟨.immediate, 16⟩]
  | j => [⟨.op, 6⟩, ⟨.target, 26⟩]

/-- The fields that assembly shows, in its order; the first gives the mnemonic. -/
def order : Format → List FieldName
  | r => [.func, .rd, .rs, .rt]
  | shift => [.func, .rs, .rt, .shamt]
  | i => [.op, .rt, .rs, .immediate]
  | j => [.op, .target]

/-- The fields that assembly shows after the mnemonic. -/
def operands (f : Format) : List FieldName := f.order.filter (!·.isMnemonic)

/-- The number of bits that the layout covers. -/
def width (f : Format) : Nat := f.fields.foldl (fun n field => n + field.width) 0

/-- Whether the words of the format are shifts. -/
def isShift (f : Format) : Bool := f == shift

/-- Whether the layout has a field of a given name. -/
def has (f : Format) (name : FieldName) : Bool := f.fields.any (·.name == name)

/-- The place of a field among those that begin at bit `start` from the left: its first bit, and
the one after its last. -/
def rangeFrom? (name : FieldName) : Nat → List Field → Option (Nat × Nat)
  | _, [] => none
  | start, field :: rest =>
    if field.name = name then some (start, start + field.width)
    else rangeFrom? name (start + field.width) rest

/-- The place of a field in the word, counted from the most significant bit. -/
def range? (f : Format) (name : FieldName) : Option (Nat × Nat) := rangeFrom? name 0 f.fields

/-- The value of a field of the word, taken from its place in the layout. There is none if the
place ends past the last bit. -/
def extract? (f : Format) (w : Word) (name : FieldName) : Option Nat :=
  (f.range? name).bind fun (start, stop) =>
    if stop ≤ 32 then some ((w.toNat >>> (32 - stop)) % Nat.pow 2 (stop - start)) else none

/-- The format of a word, which its opcode and its function code decide. -/
def ofWord (w : Word) : Format :=
  if w.opcode = specialOpcode then
    if w.function ∈ shiftFunctions then shift else r
  else if w.opcode ∈ jumpOpcodes then j
  else i

end Format

end MipsWords
