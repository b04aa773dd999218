import MipsWords.Text.Numeral
import MipsWords.Text.Characters

/-!
# Quoted text

Text of unknown content put between quotes so that it stays on one line and
can be told apart from any other text. Tab, carriage return, line feed and NUL
have two-character forms, the backslash and the quote in use take a backslash,
and a character that is not shown as itself is written by its number in
lower-case hexadecimal between braces.

Only the quote in use is escaped: `"` inside double quotes, `'` inside single
ones.
-/

namespace MipsWords.Quoted

/-- One character as it stands between two `quote`s. -/
def escaped (quote c : Char) : List Char :=
  if c = '\x00' then ['\\', '0']
  else if c = '\t' then ['\\', 't']
  else if c = '\r' then ['\\', 'r']
  else if c = '\n' then ['\\', 'n']
  else if c = '\\' then ['\\', '\\']
  else if c = quote then ['\\', quote]
  else if Text.isUnshown c then ['\\', 'u', '\x7b'] ++ Numeral.padded 16 1 c.toNat ++ ['\x7d']
  else [c]

/-- A character in single quotes. -/
def character (c : Char) : String :=
  String.ofList ('\'' :: (escaped '\'' c ++ ['\'']))

/-- A text in double quotes. -/
def string (s : String) : String :=
  String.ofList ('"' :: (s.toList.flatMap (escaped '"') ++ ['"']))

end MipsWords.Quoted
