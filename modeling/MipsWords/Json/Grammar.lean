import MipsWords.Json.Number
import MipsWords.Json.Text
import MipsWords.Json.Value

/-!
# The grammar of JSON

Which texts spell which values, said without reading. A value has many
spellings: blanks between its tokens and escapes in its strings are free. A text
spells at most one value, but that is a theorem about readers and not part of
the grammar.
-/

namespace MipsWords.Json

open Reader (isSpace isDigit isHighSurrogate isLowSurrogate)

/-- A run of the characters that may stand between tokens. -/
def Blanks (cs : List Char) : Prop := ∀ c ∈ cs, isSpace c = true

/-! ## Strings -/

/-- Four hexadecimal digits that stand for a UTF-16 unit. -/
def SpelledUnit (unit : Nat) (digits : List Char) : Prop :=
  digits.length = 4 ∧ Numeral.readFrom? 16 0 digits = some unit

/-- The characters with an escape of one letter. -/
def shortEscapes : List (Char × Char) := [
  ('"', '"'), ('\\', '\\'), ('/', '/'), ('\x08', 'b'), ('\x0c', 'f'), ('\n', 'n'), ('\r', 'r'),
  ('\t', 't')]

/-- The spellings of a character between quotes: itself, a short escape, or its UTF-16 units. -/
inductive SpelledChar : Char → List Char → Prop where
  | plain {c : Char} : c ≠ '"' → c ≠ '\\' → 0x20 ≤ c.toNat → SpelledChar c [c]
  | short {c letter : Char} : (c, letter) ∈ shortEscapes → SpelledChar c ['\\', letter]
  | unit {u : Nat} {digits : List Char} : SpelledUnit u digits → isHighSurrogate u = false →
      isLowSurrogate u = false → SpelledChar (Char.ofNat u) ('\\' :: 'u' :: digits)
  | pair {high low : Nat} {ds es : List Char} : SpelledUnit high ds → SpelledUnit low es →
      isHighSurrogate high = true → isLowSurrogate low = true →
      SpelledChar (Char.ofNat (0x10000 + (high - 0xd800) * 0x400 + (low - 0xdc00)))
        ('\\' :: 'u' :: ds ++ '\\' :: 'u' :: es)

/-- The spellings of a string between its quotes. -/
inductive SpelledChars : List Char → List Char → Prop where
  | nil : SpelledChars [] []
  | cons {c : Char} {cs text rest : List Char} : SpelledChar c text → SpelledChars cs rest →
      SpelledChars (c :: cs) (text ++ rest)

/-- The spellings of a string, quotes included. -/
def SpelledString (s : String) (text : List Char) : Prop :=
  ∃ inner, SpelledChars s.toList inner ∧ text = '"' :: (inner ++ ['"'])

/-! ## Numbers -/

/-- A run of one or more decimal digits. -/
def Digits (cs : List Char) : Prop := cs ≠ [] ∧ ∀ c ∈ cs, isDigit c = true

/-- The lexemes of numbers: an integer without a needless zero in front, a fraction, an exponent. -/
inductive NumberLexeme : List Char → Prop where
  | intro {sign whole fraction exponent : List Char} :
      sign = [] ∨ sign = ['-'] →
      Digits whole → whole = ['0'] ∨ whole.head? ≠ some '0' →
      fraction = [] ∨ (∃ ds, Digits ds ∧ fraction = '.' :: ds) →
      exponent = [] ∨ (∃ e plus ds, (e = 'e' ∨ e = 'E') ∧
        (plus = [] ∨ plus = ['+'] ∨ plus = ['-']) ∧ Digits ds ∧ exponent = e :: (plus ++ ds)) →
      NumberLexeme (sign ++ whole ++ fraction ++ exponent)

/-! ## Values -/

mutual

/-- The spellings of a value, without space around it. -/
inductive Spelled : Value → List Char → Prop where
  | null : Spelled .null ['n', 'u', 'l', 'l']
  | trueWord : Spelled (.boolean true) ['t', 'r', 'u', 'e']
  | falseWord : Spelled (.boolean false) ['f', 'a', 'l', 's', 'e']
  | number {lexeme : List Char} : NumberLexeme lexeme → Spelled (.number lexeme) lexeme
  | string {s : String} {text : List Char} : SpelledString s text → Spelled (.string s) text
  | emptyArray {sp : List Char} : Blanks sp → Spelled (.array []) ('[' :: (sp ++ [']']))
  | array {items : List Value} {text : List Char} : SpelledItems items text →
      Spelled (.array items) ('[' :: (text ++ [']']))
  | emptyObject {sp : List Char} : Blanks sp → Spelled (.object []) ('{' :: (sp ++ ['}']))
  | object {members : List (String × Value)} {text : List Char} : SpelledMembers members text →
      Spelled (.object members) ('{' :: (text ++ ['}']))

/-- The spellings of one or more elements with commas between them and space around each. -/
inductive SpelledItems : List Value → List Char → Prop where
  | last {v : Value} {before text after : List Char} : Blanks before → Spelled v text →
      Blanks after → SpelledItems [v] (before ++ text ++ after)
  | cons {v : Value} {items : List Value} {before text after rest : List Char} : Blanks before →
      Spelled v text → Blanks after → SpelledItems items rest →
      SpelledItems (v :: items) (before ++ text ++ after ++ ',' :: rest)

/-- The spellings of one or more members with commas between them and space around each token. -/
inductive SpelledMembers : List (String × Value) → List Char → Prop where
  | last {member : String × Value} {text : List Char} : SpelledMember member text →
      SpelledMembers [member] text
  | cons {member : String × Value} {members : List (String × Value)} {text rest : List Char} :
      SpelledMember member text → SpelledMembers members rest →
      SpelledMembers (member :: members) (text ++ ',' :: rest)

/-- The spellings of a key, a colon and a value, with space around each. -/
inductive SpelledMember : String × Value → List Char → Prop where
  | intro {key : String} {v : Value} {keyText text before between behind after : List Char} :
      Blanks before → SpelledString key keyText → Blanks between → Blanks behind →
      Spelled v text → Blanks after →
      SpelledMember (key, v) (before ++ keyText ++ between ++ ':' :: (behind ++ text ++ after))

end

/-- A text is one value with space around it. -/
def SpelledDocument (v : Value) (text : List Char) : Prop :=
  ∃ before inner after, Blanks before ∧ Spelled v inner ∧ Blanks after ∧
    text = before ++ inner ++ after

end MipsWords.Json
