import MipsWords.Format
import MipsWords.Text.Numeral

/-!
# Decoded words

A word taken apart: its format and the value of each field of that format.
`assemble` puts field values together again, so that `decode` and `assemble`
are two sides of one correspondence between words and well-formed field lists.

A decoded word may also be built by hand. Nothing then ties its fields to its
format; looking a field up takes the first of that name, and the listing pairs
the values with the format's widths until either runs out.
-/

namespace MipsWords

/-- A word, its format and its fields with their values, from the most significant bit. -/
structure Decoded where
  raw : Word
  format : Format
  fields : List (FieldName × Nat)
  deriving DecidableEq, Repr, Inhabited

/-- Splits a word into the fields of its format. -/
def decode (w : Word) : Decoded :=
  let f := Format.ofWord w
  { raw := w
    format := f
    fields := f.fields.filterMap fun field =>
      (f.extract? w field.name).map fun value => (field.name, value) }

/-- Joins field values of given widths, the first at the most significant end. -/
def assemble (fields : List (Nat × Nat)) : Nat :=
  fields.foldl (fun n (width, value) => n <<< width ||| value) 0

namespace Decoded

/-- The value of a field: the first of that name. -/
def field? (d : Decoded) (name : FieldName) : Option Nat :=
  (d.fields.find? (·.1 == name)).map (·.2)

/-- One field of a listing: its name and its value in binary, at least as wide as the field. -/
def fieldText (width : Nat) (name : FieldName) (value : Nat) : String :=
  " " ++ name.text ++ "=" ++ Numeral.binary width value

/-- The listing: the format, then each field. -/
def text (d : Decoded) : String :=
  let parts := (d.format.fields.zip d.fields).map fun (field, name, value) =>
    fieldText field.width name value
  d.format.name ++ ":" ++ String.join parts

end Decoded

end MipsWords
