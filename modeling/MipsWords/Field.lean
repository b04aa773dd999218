/-!
# Fields

The names of the bit fields that instruction words are made of.
-/

namespace MipsWords

/-- The name of a field. It says nothing about the place of the field. -/
inductive FieldName where
  | op | rs | rt | rd | shamt | func | immediate | target
  deriving DecidableEq, Repr, Inhabited

namespace FieldName

/-- The names of fields. -/
def all : List FieldName := [op, rs, rt, rd, shamt, func, immediate, target]

/-- The name as it stands in a listing of fields. -/
def text : FieldName → String
  | op => "op" | rs => "rs" | rt => "rt" | rd => "rd"
  | shamt => "shamt" | func => "func" | immediate => "immediate" | target => "target"

/-- Whether the value of the field is the code of a register. -/
def isRegister : FieldName → Bool
  | rs | rt | rd => true
  | op | shamt | func | immediate | target => false

/-- Whether the field is printed as the mnemonic rather than as an operand. -/
def isMnemonic : FieldName → Bool
  | op | func => true
  | rs | rt | rd | shamt | immediate | target => false

end FieldName

/-- A field of a layout: its name and its width in bits. -/
structure Field where
  name : FieldName
  width : Nat
  deriving DecidableEq, Repr, Inhabited

end MipsWords
