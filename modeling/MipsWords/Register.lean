import MipsWords.Error

/-!
# Registers

The thirty integer registers with an assembler name. Codes 26 and 27, which the
kernel keeps for itself, have none, so they can be neither written nor read.

A register is written with a `$` in front; the sign may be missing when a name
is read.
-/

namespace MipsWords

/-- A register with a name. -/
inductive Register where
  | zero | at
  | v0 | v1
  | a0 | a1 | a2 | a3
  | t0 | t1 | t2 | t3 | t4 | t5 | t6 | t7
  | s0 | s1 | s2 | s3 | s4 | s5 | s6 | s7
  | t8 | t9
  | gp | sp | fp | ra
  deriving DecidableEq, Repr, Inhabited

namespace Register

/-- The registers by ascending code. -/
def all : List Register :=
  [zero, .at, v0, v1, a0, a1, a2, a3, t0, t1, t2, t3, t4, t5, t6, t7,
    s0, s1, s2, s3, s4, s5, s6, s7, t8, t9, gp, sp, fp, ra]

/-- The number of a register in an instruction word. -/
def code : Register → Nat
  | zero => 0 | .at => 1 | v0 => 2 | v1 => 3
  | a0 => 4 | a1 => 5 | a2 => 6 | a3 => 7
  | t0 => 8 | t1 => 9 | t2 => 10 | t3 => 11
  | t4 => 12 | t5 => 13 | t6 => 14 | t7 => 15
  | s0 => 16 | s1 => 17 | s2 => 18 | s3 => 19
  | s4 => 20 | s5 => 21 | s6 => 22 | s7 => 23
  | t8 => 24 | t9 => 25
  | gp => 28 | sp => 29 | fp => 30 | ra => 31

/-- The assembler name, without the sign. -/
def name : Register → String
  | zero => "zero" | .at => "at" | v0 => "v0" | v1 => "v1"
  | a0 => "a0" | a1 => "a1" | a2 => "a2" | a3 => "a3"
  | t0 => "t0" | t1 => "t1" | t2 => "t2" | t3 => "t3"
  | t4 => "t4" | t5 => "t5" | t6 => "t6" | t7 => "t7"
  | s0 => "s0" | s1 => "s1" | s2 => "s2" | s3 => "s3"
  | s4 => "s4" | s5 => "s5" | s6 => "s6" | s7 => "s7"
  | t8 => "t8" | t9 => "t9"
  | gp => "gp" | sp => "sp" | fp => "fp" | ra => "ra"

/-- The name as it is written in assembly. -/
def text (r : Register) : String := "$" ++ r.name

/-- The register of a code. Codes that have no name and those beyond 31 are errors. -/
def ofCode (code : Nat) : Except Error Register :=
  match all.find? (·.code = code) with
  | some r => .ok r
  | none => .error (.registerCode code)

/-- A name without the sign in front of it, if there is one. -/
def bare (name : String) : String :=
  match name.toList with
  | '$' :: rest => String.ofList rest
  | _ => name

/-- The register with a given name, written with or without the sign. -/
def parse (name : String) : Except Error Register :=
  match all.find? (·.name = bare name) with
  | some r => .ok r
  | none => .error (.registerName name)

/-- The text of the register of a code. -/
def render (code : Nat) : Except Error String := (ofCode code).map text

/-- The registers of a list by ascending code, each once. -/
def sorted (rs : List Register) : List Register := all.filter (· ∈ rs)

end Register

end MipsWords
