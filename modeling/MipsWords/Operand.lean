import MipsWords.Field
import MipsWords.Register
import MipsWords.Text.Numeral

/-!
# Operands

How the value of a field looks in a line of assembly, and how such a text is
read back to the value. A register is written by name, a shift amount in
decimal; an immediate in decimal is taken with its sign, in hexadecimal as its
sixteen bits; a jump target is a plain number in either radix.

The mnemonic fields are no operands. They are written by name in a line, and
here they have the text of their number.
-/

namespace MipsWords

/-- How a number is written. -/
inductive Radix where
  | decimal | hex
  deriving DecidableEq, Repr, Inhabited

/-- The name of a radix in a settings file. -/
def Radix.text : Radix → String
  | decimal => "decimal" | hex => "hex"

/-- The radix of each kind of number in a line of assembly. -/
structure Style where
  /-- Immediates read naturally as signed offsets and constants. -/
  immediate : Radix := .decimal
  /-- Jump targets are word addresses. -/
  target : Radix := .hex
  deriving DecidableEq, Repr, Inhabited

/-- The number that sixteen bits stand for in two's complement. -/
def signExtend16 (value : Nat) : Int := (BitVec.ofNat 16 value).toInt

namespace Operand

/-- The text of an immediate. -/
def immediate (radix : Radix) (value : Nat) : String :=
  match radix with
  | .decimal => Numeral.signed (signExtend16 value)
  | .hex => "0x" ++ Numeral.hex 4 value

/-- The text of a jump target. -/
def target (radix : Radix) (value : Nat) : String :=
  match radix with
  | .decimal => Numeral.decimal value
  | .hex => "0x" ++ Numeral.hex 1 value

/-- The text of a field's value. Only a register code can be without one. -/
def render (style : Style) (name : FieldName) (value : Nat) : Except Error String :=
  match name with
  | .rs | .rt | .rd => Register.render value
  | .immediate => .ok (immediate style.immediate value)
  | .target => .ok (target style.target value)
  | .shamt | .op | .func => .ok (Numeral.decimal value)

/-! ## Reading back -/

/-- Reads `0x` and a hexadecimal number. -/
def readHex? : List Char → Option Nat
  | '0' :: 'x' :: digits => Numeral.read? 16 digits
  | _ => none

/-- Reads a decimal number with an optional minus sign, modulo `2 ^ 16`. -/
def readSigned16? : List Char → Option Nat
  | '-' :: digits => (Numeral.read? 10 digits).map fun n => (BitVec.ofInt 16 (-Int.ofNat n)).toNat
  | digits => (Numeral.read? 10 digits).map fun n => (BitVec.ofNat 16 n).toNat

/-- Reads a number in a radix as a jump target is written. -/
def readTarget? (radix : Radix) (text : List Char) : Option Nat :=
  match radix with
  | .decimal => Numeral.read? 10 text
  | .hex => readHex? text

/-- Reads a number in a radix as an immediate is written. -/
def readImmediate? (radix : Radix) (text : List Char) : Option Nat :=
  match radix with
  | .decimal => readSigned16? text
  | .hex => readHex? text

/-- The value that a text of a field stands for. -/
def read? (style : Style) (name : FieldName) (text : String) : Option Nat :=
  match name with
  | .rs | .rt | .rd => (Register.parse text).toOption.map Register.code
  | .immediate => readImmediate? style.immediate text.toList
  | .target => readTarget? style.target text.toList
  | .shamt | .op | .func => Numeral.read? 10 text.toList

end Operand

end MipsWords
