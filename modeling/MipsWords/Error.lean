import MipsWords.Files.Directory
import MipsWords.Json.Fault
import MipsWords.Mnemonic.Names

/-!
# Errors

Everything that can go wrong between the text of an instruction word and the
line of assembly printed for it. An error is a cause with what is known about
it; its wording is in one place, `Error.message`, and so is its one-line form
for log records, `Error.record?`.
-/

namespace MipsWords

/-- Why a text, a code, a word or a file could not be used. -/
inductive Error where
  /-- A binary word of some other length than 32 characters. -/
  | wordLength (found : Nat)
  /-- A character of a binary word that is no bit, and its index from the left. -/
  | bitCharacter (character : Char) (position : Nat)
  /-- A hexadecimal word without digits, with too many, or with something else among them. -/
  | hexWord (text : String)
  /-- A register code without a name. -/
  | registerCode (code : Nat)
  | registerName (name : String)
  /-- A mnemonic that the table in use does not hold. -/
  | unknownMnemonic (query : Query)
  /-- A key of a table file that is not six binary digits. -/
  | tableKey (key : String)
  /-- A file or text that is not the JSON it should be. -/
  | json (fault : Json.Fault)
  | unreadable (path : String) (failure : ReadFailure)
  deriving DecidableEq, Repr, Inhabited

/-- The query in words: its codes in binary, six digits or more. -/
def Query.describe (q : Query) : String :=
  let opcode := "opcode " ++ Numeral.binary 6 q.opcode
  match q.function? with
  | none => opcode
  | some code => opcode ++ " function " ++ Numeral.binary 6 code

namespace Error

/-- The error in words, as it stands behind `error: ` and the operand. -/
def message : Error → String
  | wordLength found => "instruction word must be 32 bits, got " ++ Numeral.decimal found
  | bitCharacter character position =>
    "invalid bit character " ++ Quoted.character character ++ " at position " ++
      Numeral.decimal position
  | hexWord text => "invalid hexadecimal instruction word " ++ Quoted.string text
  | registerCode code => "unknown register code " ++ Numeral.decimal code
  | registerName name => "unknown register name " ++ Quoted.string name
  | unknownMnemonic query => "no mnemonic for " ++ query.describe
  | tableKey key => "invalid table key " ++ Quoted.string key ++ ", expected six binary digits"
  | json fault => "malformed JSON: " ++ fault.message
  | unreadable path failure => "failed to read " ++ path ++ ": " ++ failure.reason

/-- A record: its name and, between braces, its fields. -/
private def fields (name : String) (items : List (String × String)) : String :=
  name ++ " \x7b " ++ ", ".intercalate (items.map fun (key, value) => key ++ ": " ++ value) ++
    " \x7d"

/-- A record of one field without a name. -/
private def wrapped (name item : String) : String := name ++ "(" ++ item ++ ")"

/-- The form an error takes in a log record. File and JSON errors never get into one. -/
def record? : Error → Option String
  | wordLength found =>
    some (fields "InvalidEncodingLength" [("found", Numeral.decimal found)])
  | bitCharacter character position =>
    some (fields "InvalidBitCharacter"
      [("character", Quoted.character character), ("position", Numeral.decimal position)])
  | hexWord text => some (wrapped "InvalidHexWord" (Quoted.string text))
  | registerCode code => some (wrapped "UnknownRegisterCode" (Numeral.decimal code))
  | registerName name => some (wrapped "UnknownRegisterName" (Quoted.string name))
  | unknownMnemonic query =>
    let function := match query.function? with
      | none => "None"
      | some code => wrapped "Some" (Numeral.decimal code)
    some (fields "UnknownMnemonic"
      [("opcode", Numeral.decimal query.opcode), ("funct", function)])
  | tableKey key => some (wrapped "InvalidTableKey" (Quoted.string key))
  | json _ => none
  | unreadable .. => none

end Error

end MipsWords
