import MipsWords.Disassembly
import MipsWords.Word.Text

/-!
# Log records

What a run notes beside its results, and the levels that decide which notes are
shown. A level shows the notes that are no more verbose than itself.
-/

namespace MipsWords.Command

/-- How much is shown, from nothing to everything. -/
inductive Level where
  | off | error | warn | info | debug | trace
  deriving DecidableEq, Repr, Inhabited

namespace Level

/-- The levels, from the quietest on. -/
def all : List Level := [off, error, warn, info, debug, trace]

/-- The word that sets a level. -/
def name : Level → String
  | off => "off" | error => "error" | warn => "warn"
  | info => "info" | debug => "debug" | trace => "trace"

/-- How much a level shows, as a number. -/
def rank : Level → Nat
  | off => 0 | error => 1 | warn => 2 | info => 3 | debug => 4 | trace => 5

/-- The level that a word sets. -/
def ofName? (name : String) : Option Level := all.find? (·.name == name)

/-- Whether a note of one level is shown at another. -/
def shows (level note : Level) : Bool := note.rank ≤ level.rank

end Level

/-- A log record. -/
inductive Notice where
  /-- A table was read from a file, with so many entries. -/
  | tableLoaded (opcodes functions : Nat)
  | disassembled (w : Word) (format : Format) (text : String)
  | rejected (input : String) (error : Error)
  deriving DecidableEq, Repr, Inhabited

namespace Notice

/-- How verbose a record is. -/
def level : Notice → Level
  | tableLoaded .. => .debug
  | disassembled .. => .trace
  | rejected .. => .debug

/-- The line of a record, without the time in front of it. -/
def text : Notice → String
  | tableLoaded opcodes functions =>
    "DEBUG mdma_core::isa::table: loaded mnemonic table opcodes=" ++ Numeral.decimal opcodes ++
      " functions=" ++ Numeral.decimal functions
  | disassembled w format text =>
    "TRACE mdma_core::isa::disasm: disassembled word=" ++ w.hexLiteral ++ " format=" ++
      format.name ++ " text=" ++ text
  | rejected input error =>
    "DEBUG mdma: rejected input input=" ++ input ++ " error=" ++
      error.record?.getD error.message

end Notice

end MipsWords.Command
