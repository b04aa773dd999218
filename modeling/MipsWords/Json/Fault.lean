import MipsWords.Number.Shortest
import MipsWords.Text.Quoted

/-!
# What can be wrong with a JSON text

A text fails in one of three ways: it ends too early, it is not JSON at some
character, or it is JSON that the expected shape does not admit. Only the third
has a wording that is fixed here, built from what was found and what was
expected.
-/

namespace MipsWords.Json

/-- A value of the wrong type, as far as the reader has to know it to say so. -/
inductive Found where
  | null
  | boolean (value : Bool)
  | integer (value : Int)
  | floating (value : Decimal)
  | string (value : String)
  | sequence
  | map
  deriving DecidableEq, Repr, Inhabited

/-- The value found, in the words of a complaint. -/
def Found.describe : Found → String
  | null => "null"
  | boolean true => "boolean `true`"
  | boolean false => "boolean `false`"
  | integer value => "integer `" ++ Numeral.signed value ++ "`"
  | floating value => "floating point `" ++ value.text ++ "`"
  | string value => "string " ++ Quoted.string value
  | sequence => "sequence"
  | map => "map"

/-- What a shape holds against a value that is well-formed JSON so far. -/
inductive Complaint where
  /-- A value of the wrong type, where `expected` was due. -/
  | wrongType (found : Found) (expected : String)
  /-- A key that the record does not have. -/
  | unknownField (key : String) (expected : List String)
  /-- A key that the record was already given. -/
  | duplicateField (key : String)
  /-- A name that the choice does not have. -/
  | unknownVariant (name : String) (expected : List String)
  deriving DecidableEq, Repr, Inhabited

/-- The admitted names in words: one alone, two joined by "or", more as a list. -/
def oneOf : List String → String
  | [] => "nothing"
  | [a] => "`" ++ a ++ "`"
  | [a, b] => "`" ++ a ++ "` or `" ++ b ++ "`"
  | names => "one of " ++ ", ".intercalate (names.map fun a => "`" ++ a ++ "`")

/-- The complaint in words. -/
def Complaint.message : Complaint → String
  | wrongType found expected => "invalid type: " ++ found.describe ++ ", expected " ++ expected
  | unknownField key expected => "unknown field `" ++ key ++ "`, expected " ++ oneOf expected
  | duplicateField key => "duplicate field `" ++ key ++ "`"
  | unknownVariant name expected =>
    "unknown variant `" ++ name ++ "`, expected " ++ oneOf expected

/-- Why a text could not be read. -/
inductive Fault where
  /-- The text ends inside a value, or before one. -/
  | ended
  /-- The next character cannot stand where it stands. -/
  | malformed
  /-- What was read so far has the wrong shape. -/
  | schema (complaint : Complaint)
  deriving DecidableEq, Repr, Inhabited

/-- The fault in words. The words of `ended` and `malformed` are placeholders: a reader has more than
one wording for each of the two. Behind the words of all three a reader puts the place in the text,
` at line L column C`, which is left out here although it can move with what follows the fault. -/
def Fault.message : Fault → String
  | ended => "unexpected end of text"
  | malformed => "unexpected character"
  | schema complaint => complaint.message

end MipsWords.Json
