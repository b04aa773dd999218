import MipsWords.Decoded
import MipsWords.Mnemonic.Table
import MipsWords.Operand

/-!
# Disassembly

A word as a line of assembly: the mnemonic, a space, and the operands of its
format, separated by a comma and a space.

The line is written field by field in the order of the format and the first
failure ends the work. The mnemonic comes first in every format, so of a word
that the table does not know and that also names a reserved register the
mnemonic is what is reported.

A line splits back into its mnemonic, up to the first space, and the operands
behind it (`Line.split`).
-/

namespace MipsWords

/-- What is written of a line so far. -/
structure Draft where
  mnemonic : String := ""
  operands : List String := []
  deriving DecidableEq, Repr, Inhabited

namespace Draft

/-- The draft as a line. Without operands it is the bare mnemonic. -/
def text (draft : Draft) : String :=
  if draft.operands.isEmpty then draft.mnemonic
  else draft.mnemonic ++ " " ++ ", ".intercalate draft.operands

/-- Writes a field of a decoded word. A field that the word does not have is passed over. -/
def write (names : Lookup) (style : Style) (d : Decoded) (draft : Draft) (name : FieldName) :
    Except Error Draft :=
  match d.field? name with
  | none => .ok draft
  | some value =>
    if name.isMnemonic then do
      return { draft with mnemonic := ← names.mnemonic d.raw }
    else do
      return { draft with operands := draft.operands ++ [← Operand.render style name value] }

end Draft

/-- The line of assembly for a word. -/
def disassemble (names : Lookup) (style : Style) (w : Word) : Except Error String := do
  let d := decode w
  let draft ← d.format.order.foldlM (Draft.write names style d) {}
  return draft.text

/-- The line of assembly by the built-in table in the default style. -/
def disassembleBuiltin (w : Word) : Except Error String :=
  disassemble Table.builtin.resolve {} w

/-! ## Lines of assembly -/

namespace Line

/-- Splits at every comma that a space follows. There is always a piece, if only an empty one. -/
def pieces : List Char → List (List Char)
  | [] => [[]]
  | ',' :: ' ' :: rest => [] :: pieces rest
  | c :: rest =>
    match pieces rest with
    | first :: others => (c :: first) :: others
    | [] => [[c]]

/-- The text before the first space, and the pieces of the text behind it. -/
def split (line : String) : String × List String :=
  let cs := line.toList
  let behind := (cs.dropWhile (· ≠ ' ')).drop 1
  (String.ofList (cs.takeWhile (· ≠ ' ')), (pieces behind).map String.ofList)

end Line

end MipsWords
