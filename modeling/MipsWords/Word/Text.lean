import MipsWords.Error
import MipsWords.Word.Basic

/-!
# Words as text

A word is written as 32 binary digits, the most significant first, or as a
hexadecimal literal: `0x` or `0X` and one to eight digits of either case, with
underscores anywhere among them. Blanks are not skipped.

Of a text in binary form the length is checked before the characters, and the
first character that is no bit is the one reported.
-/

namespace MipsWords.Word

/-- The word in 32 binary digits. -/
def toBits (w : Word) : String := Numeral.binary 32 w.toNat

/-- The word as `0x` and eight hexadecimal digits. -/
def hexLiteral (w : Word) : String := "0x" ++ Numeral.hex 8 w.toNat

/-- The number that a run of binary digits stands for; any character but `1` counts as zero. -/
def bitsValue (bits : List Char) : Nat :=
  bits.foldl (fun n c => 2 * n + if c = '1' then 1 else 0) 0

/-- The word of 32 binary digits. -/
def ofBits (text : String) : Except Error Word :=
  let cs := text.toList
  if cs.length = 32 then
    match cs.zipIdx.find? fun (c, _) => c ≠ '0' && c ≠ '1' with
    | some (c, position) => .error (.bitCharacter c position)
    | none => .ok (BitVec.ofNat 32 (bitsValue cs))
  else .error (.wordLength cs.length)

/-- The word of one to eight hexadecimal digits with underscores among them. -/
def ofHexDigits? (digits : List Char) : Option Word :=
  let digits := digits.filter (· ≠ '_')
  if digits.length ≤ 8 then (Numeral.read? 16 digits).map (BitVec.ofNat 32) else none

/-- The characters after `0x` or `0X`, of a text that starts so. -/
def hexPart? : List Char → Option (List Char)
  | '0' :: 'x' :: digits => some digits
  | '0' :: 'X' :: digits => some digits
  | _ => none

/-- The word that a text stands for, in either of its two forms. -/
def parse (text : String) : Except Error Word :=
  match hexPart? text.toList with
  | some digits =>
    match ofHexDigits? digits with
    | some w => .ok w
    | none => .error (.hexWord text)
  | none => ofBits text

end MipsWords.Word
