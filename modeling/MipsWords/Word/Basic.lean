/-!
# Instruction words

An instruction is a word of 32 bits. Every accessor takes its bits from a fixed
place, whatever the word's format; whether the bits mean anything is for the
format to say. Bits are counted from the least significant one.
-/

namespace MipsWords

/-- An instruction word. -/
abbrev Word := BitVec 32

namespace Word

/-- Bits 26 to 31. -/
def opcode (w : Word) : Nat := (w.extractLsb' 26 6).toNat

/-- Bits 21 to 25, the first source register. -/
def rs (w : Word) : Nat := (w.extractLsb' 21 5).toNat

/-- Bits 16 to 20, the second source register or the target register. -/
def rt (w : Word) : Nat := (w.extractLsb' 16 5).toNat

/-- Bits 11 to 15, the destination register. -/
def rd (w : Word) : Nat := (w.extractLsb' 11 5).toNat

/-- Bits 6 to 10, the shift amount. -/
def shamt (w : Word) : Nat := (w.extractLsb' 6 5).toNat

/-- Bits 0 to 5, the function code. -/
def function (w : Word) : Nat := (w.extractLsb' 0 6).toNat

/-- Bits 0 to 15, without regard to sign. -/
def immediate (w : Word) : Nat := (w.extractLsb' 0 16).toNat

/-- Bits 0 to 25. -/
def target (w : Word) : Nat := (w.extractLsb' 0 26).toNat

end Word

end MipsWords
