import MipsWords.Error
import MipsWords.Files.Directory
import MipsWords.Json.Shape
import MipsWords.Operand

/-!
# Settings

What a settings file may say: whether every log record is shown, the radix of
numeric operands, and the path of a table of mnemonics. All of it may be left
out, and what is left out has its default.

The file is a JSON record with the sections `general`, `disasm` and `table`,
each a record itself.
-/

namespace MipsWords

/-- What a settings file decides. -/
structure Settings where
  /-- Show every log record. -/
  trace : Bool := false
  /-- How numeric operands are written. -/
  style : Style := {}
  /-- A table file to use in place of the built-in table. -/
  tablePath? : Option String := none
  deriving DecidableEq, Repr, Inhabited

namespace Settings

open Json (Reader)
open Json.Reader (RecordField boolean choice record text?)

/-- Reads a radix by its name. -/
def radix : Reader Radix := choice [("decimal", .decimal), ("hex", .hex)]

/-- The fields of the section `general`. -/
def generalFields : List (RecordField Settings) := [
  ⟨"trace", fun s => do return { s with trace := ← boolean }⟩]

/-- The fields of the section `disasm`. -/
def disasmFields : List (RecordField Settings) := [
  ⟨"immediate_radix", fun s => do
    return { s with style := { s.style with immediate := ← radix } }⟩,
  ⟨"target_radix", fun s => do
    return { s with style := { s.style with target := ← radix } }⟩]

/-- The fields of the section `table`. -/
def tableFields : List (RecordField Settings) := [
  ⟨"path", fun s => do return { s with tablePath? := ← text? "path string" }⟩]

/-- The sections of a settings file. -/
def sections : List (RecordField Settings) := [
  ⟨"general", record "GeneralConfig" generalFields⟩,
  ⟨"disasm", record "DisasmConfig" disasmFields⟩,
  ⟨"table", record "TableConfig" tableFields⟩]

/-- The settings that a JSON text describes. -/
def ofJson (text : String) : Except Error Settings :=
  (Json.Reader.document (record "Config" sections {}) text).mapError .json

/-- The settings of a file. -/
def ofFile (files : Files) (path : String) : Except Error Settings :=
  match files path with
  | .ok text => ofJson text
  | .error failure => .error (.unreadable path failure)

end Settings

end MipsWords
