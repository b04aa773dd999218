import MipsWords.Json.Shape
import MipsWords.Mnemonic.Table
import MipsWords.Settings

/-!
# Loading and editing tables

A table file is a JSON record with two maps from keys of six binary digits to
mnemonics, `opcodes` and `functions`. A key may be given more than once, and its
last name counts.

Keys are judged when the whole text has been read: first those of `opcodes`,
then those of `functions`, and of several bad keys in a map the least one is
reported. So which key is reported does not depend on the order of the text.

There are three ways to change a table in use: to name an opcode, to name a
function code, and to put the table of a file in its place. A file that cannot
be read as a table changes nothing.
-/

namespace MipsWords

namespace Names

/-- The code that a key of six binary digits stands for. -/
def keyCode? (key : String) : Option Nat :=
  if key.length = 6 then Numeral.read? 2 key.toList else none

/-- The code that a key stands for, or an error that names the key. -/
def parseKey (key : String) : Except Error Nat :=
  match keyCode? key with
  | some code => .ok code
  | none => .error (.tableKey key)

/-- The names of a map with keys for codes, key by key in ascending order up to a bad one. -/
def ofKeyed (named : Std.ExtTreeMap String String) : Except Error Names := do
  let pairs ← named.toList.mapM fun (key, name) => do return (← parseKey key, name)
  return ofPairs pairs

/-- The names given by the members of a map, the last one with a key in place of the others. -/
def ofMembers (members : List (String × String)) : Except Error Names :=
  ofKeyed (.ofList members)

end Names

namespace Table

open Json.Reader (RecordField record entries)

/-- The members of the two maps of a table file, in the order of the text. -/
structure Members where
  opcodes : List (String × String) := []
  functions : List (String × String) := []
  deriving DecidableEq, Repr, Inhabited

/-- The two maps of a table file. -/
def sections : List (RecordField Members) := [
  ⟨"opcodes", fun m => do return { m with opcodes := ← entries }⟩,
  ⟨"functions", fun m => do return { m with functions := ← entries }⟩]

/-- The table with the given members, if all their keys are good. -/
def ofMembers (members : Members) : Except Error Table := do
  let opcodes ← Names.ofMembers members.opcodes
  let functions ← Names.ofMembers members.functions
  return ⟨opcodes, functions⟩

/-- The members of a table file, whose keys are not judged yet. -/
def Members.ofJson (text : String) : Except Error Members :=
  (Json.Reader.document (record "RawTable" sections {}) text).mapError .json

/-- The table that a JSON text describes. -/
def ofJson (text : String) : Except Error Table := do ofMembers (← Members.ofJson text)

/-- The table of a file. -/
def ofFile (files : Files) (path : String) : Except Error Table :=
  match files path with
  | .ok text => ofJson text
  | .error failure => .error (.unreadable path failure)

end Table

/-- The table that the settings name, or the built-in one. -/
def Settings.table (files : Files) (s : Settings) : Except Error Table :=
  match s.tablePath? with
  | some path => Table.ofFile files path
  | none => .ok .builtin

/-! ## Edits -/

/-- A change to a table. -/
inductive Edit where
  | opcode (code : Nat) (name : String)
  | function (code : Nat) (name : String)
  /-- Replaces the table by the one that a JSON text describes. -/
  | load (text : String)
  deriving DecidableEq, Repr, Inhabited

namespace Table

/-- The table after a change, or why it could not be made. -/
def edit (t : Table) : Edit → Except Error Table
  | .opcode code name => .ok (t.insertOpcode code name)
  | .function code name => .ok (t.insertFunction code name)
  | .load text => ofJson text

/-- The table after a change, the same if it could not be made. -/
def apply (t : Table) (e : Edit) : Table := (t.edit e).toOption.getD t

/-- The table after a run of changes. -/
def applyAll (t : Table) (edits : List Edit) : Table := edits.foldl apply t

end Table

end MipsWords
