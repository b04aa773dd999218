import Std.Data.ExtTreeMap

/-!
# Names by code

A mnemonic belongs to a primary opcode, except under opcode zero, where the
function code names the operation; a `Query` has both codes.

`Names` are maps from codes to names in ascending order of the codes. Two ways
lead into such a map: `insert` takes the low six bits of any code, and `ofPairs`
takes each code as it is. A look-up takes its code as it is too.

The maps are extensional, so two of them with the same look-ups are equal.
-/

namespace MipsWords

/-- What is asked of a table of mnemonics: an opcode and, under opcode zero, a function code. -/
structure Query where
  opcode : Nat
  function? : Option Nat := none
  deriving DecidableEq, Repr, Inhabited

/-- Names by code. -/
structure Names where
  map : Std.ExtTreeMap Nat String
  deriving DecidableEq, Repr

namespace Names

/-- No names at all. -/
def empty : Names := ⟨∅⟩

instance : Inhabited Names := ⟨empty⟩

/-- The name of a code. -/
def get? (t : Names) (code : Nat) : Option String := t.map[code]?

/-- Gives the low six bits of a code a name, in place of any name they had. -/
def insert (t : Names) (code : Nat) (name : String) : Names := ⟨t.map.insert (code % 64) name⟩

/-- Gives names one after the other, each to the low six bits of its code. -/
def insertAll (t : Names) (pairs : List (Nat × String)) : Names :=
  pairs.foldl (fun t (code, name) => t.insert code name) t

/-- The names given by pairs, a later pair in place of an earlier one with the same code. -/
def ofPairs (pairs : List (Nat × String)) : Names := ⟨.ofList pairs⟩

/-- The codes that have a name, in ascending order, with their names. -/
def entries (t : Names) : List (Nat × String) := t.map.toList

/-- The number of codes that have a name. -/
def size (t : Names) : Nat := t.map.size

/-- Whether no code has a name. -/
def isEmpty (t : Names) : Bool := t.map.isEmpty

/-! ## Look-ups -/

@[ext]
theorem ext {s t : Names} (h : ∀ code, s.get? code = t.get? code) : s = t := by
  obtain ⟨s⟩ := s
  obtain ⟨t⟩ := t
  congr 1
  exact Std.ExtTreeMap.ext_getElem? fun {code} => h code

@[simp]
theorem get?_empty (code : Nat) : empty.get? code = none := by
  simp [get?, empty]

/-- An insertion changes the low six bits of its code and nothing else. -/
theorem get?_insert (t : Names) (code other : Nat) (name : String) :
    (t.insert code name).get? other = if other = code % 64 then some name else t.get? other := by
  rw [get?, insert, Std.ExtTreeMap.getElem?_insert]
  simp only [Std.LawfulEqCmp.compare_eq_iff_eq, eq_comm (a := other), get?]

end Names

end MipsWords
