/-!
# JSON values

What a JSON text stands for, apart from the text: numbers by how they are
written, objects with their members in order, repeated keys included.

A record in either spelling is a view of a value: it has the parts that its
declared keys name, in an object by key and in an array by place.
-/

namespace MipsWords.Json

/-- A JSON value. Numbers are kept as they are written and members in the order of the text. -/
inductive Value where
  | null
  | boolean (value : Bool)
  | number (lexeme : List Char)
  | string (value : String)
  | array (items : List Value)
  | object (members : List (String × Value))
  deriving Inhabited

namespace Value

/-- A record with some of the declared keys: an object with each at most once, or an array with no
more elements. -/
def IsRecord (keys : List String) : Value → Prop
  | array items => items.length ≤ keys.length
  | object members => (members.map (·.1)).Nodup ∧ ∀ member ∈ members, member.1 ∈ keys
  | _ => False

/-- The part of a record that belongs to one of its declared keys, if it is given. -/
def part? (keys : List String) (key : String) : Value → Option Value
  | array items => (keys.idxOf? key).bind fun place => items[place]?
  | object members => (members.find? (·.1 == key)).map (·.2)
  | _ => none

end Value

end MipsWords.Json
