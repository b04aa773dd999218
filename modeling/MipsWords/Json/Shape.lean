import MipsWords.Json.Number
import MipsWords.Json.Text

/-!
# Shapes

Readers for the values that tables and settings are made of: truth values,
texts, choices, maps from text to text, and records. A reader for a shape
reports a value of another type as soon as it knows the type: at the opening
bracket of an array or object, and behind a literal, string or number.

A record is an object or an array. In an object the keys come in any order,
each at most once, and a key is judged as soon as it has been read. In an array
the fields come in their declared order and those at the end may be missing. A
field that is not given keeps what it was.
-/

namespace MipsWords.Json.Reader

variable {α : Type}

/-- Reads as much of a value as it takes to name it in a complaint. -/
def found : Reader Found := do
  match ← peek with
  | 'n' => do
    word ['n', 'u', 'l', 'l']
    pure .null
  | 't' => do
    word ['t', 'r', 'u', 'e']
    pure (.boolean true)
  | 'f' => do
    word ['f', 'a', 'l', 's', 'e']
    pure (.boolean false)
  | '"' => do
    skip
    .string <$> quoted
  | '[' => pure .sequence
  | '{' => pure .map
  | c => if c == '-' || isDigit c then number else fail .malformed

/-- Complains that the value here is not what was `expected`. -/
def wrongType (expected : String) : Reader α := do
  fail (.schema (.wrongType (← found) expected))

/-- Reads a truth value. -/
def boolean : Reader Bool := do
  match ← peek with
  | 't' => do
    word ['t', 'r', 'u', 'e']
    pure true
  | 'f' => do
    word ['f', 'a', 'l', 's', 'e']
    pure false
  | _ => wrongType "a boolean"

/-- Reads a string, which goes by the name `expected` in a complaint. -/
def text (expected : String) : Reader String := do
  match ← peek with
  | '"' => do
    skip
    quoted
  | _ => wrongType expected

/-- Reads a string or `null`, which is no string. -/
def text? (expected : String) : Reader (Option String) := do
  match ← peek with
  | 'n' => do
    word ['n', 'u', 'l', 'l']
    pure none
  | _ => some <$> text expected

/-- Reads `null`. -/
def unit : Reader Unit := do
  match ← peek with
  | 'n' => word ['n', 'u', 'l', 'l']
  | _ => wrongType "unit"

/-- The option of a given name, of those there are. -/
def pick (options : List (String × α)) (name : String) : Reader α :=
  match options.find? (·.1 == name) with
  | some (_, a) => pure a
  | none => fail (.schema (.unknownVariant name (options.map (·.1))))

/-- Reads one of several names: a string, or the only key of an object, with the value `null`.
A key is a string here as in every object, so a key of another type is no JSON. -/
def choice (options : List (String × α)) : Reader α := do
  match ← peek with
  | '"' => do
    skip
    pick options (← quoted)
  | '{' => do
    skip
    token '"'
    let a ← pick options (← quoted)
    token ':'
    unit
    token '}'
    pure a
  | _ => fail .malformed

/-! ## Objects -/

/-- Takes the next key of an object, or its closing brace. Before every key but the first stands
a comma. -/
def key? (first : Bool) : Reader (Option String) := do
  match ← peek with
  | '}' => do
    skip
    pure none
  | '"' =>
    if first then do
      skip
      some <$> quoted
    else fail .malformed
  | ',' =>
    if first then fail .malformed
    else do
      skip
      token '"'
      some <$> quoted
  | _ => fail .malformed

theorem shrinks_key? (first : Bool) : Shrinks (key? first) := by
  refine shrinks_peek.bind fun c => ?_
  split
  · exact shrinks_skip.bind fun _ => .pure _
  · split
    · exact shrinks_skip.bind fun _ => shrinks_quoted.map _
    · exact .fail _
  · split
    · exact .fail _
    · exact shrinks_skip.bind fun _ => (shrinks_token _).bind fun _ => shrinks_quoted.map _
  · exact .fail _

/-- A complaint leaves nothing to go on with. -/
theorem wrongType_ne_ok {expected : String} {s rest : List Char} {a : α} :
    wrongType expected s ≠ .ok (a, rest) := by
  intro h
  obtain ⟨found, mid, _, h⟩ := bind_eq_ok.1 h
  cases h

theorem shrinks_text (expected : String) : Shrinks (text expected) := by
  refine shrinks_peek.bind fun c => ?_
  split
  · exact shrinks_skip.bind fun _ => shrinks_quoted
  · exact fun _ _ _ h => absurd h wrongType_ne_ok

/-- Takes a member of a map of texts, or its closing brace. -/
def entry? (first : Bool) : Reader (Option (String × String)) := do
  match ← key? first with
  | none => pure none
  | some key => do
    token ':'
    let value ← text "a string"
    pure (some (key, value))

theorem entry?_shorter {first : Bool} {s rest : List Char} {member : String × String}
    (h : entry? first s = .ok (some member, rest)) : rest.length < s.length := by
  obtain ⟨key?, afterKey, hkey, h⟩ := bind_eq_ok.1 h
  have := shrinks_key? first _ _ _ hkey
  match key?, h with
  | none, h => cases h
  | some key, h =>
    obtain ⟨_, afterColon, hcolon, h⟩ := bind_eq_ok.1 h
    obtain ⟨value, afterValue, hvalue, h⟩ := bind_eq_ok.1 h
    have := token_shorter hcolon
    have := shrinks_text _ _ _ _ hvalue
    cases h
    omega

/-- The members of a map of texts from here to its closing brace, in the order of the text. -/
def entriesFrom (first : Bool) (s : List Char) :
    Except Fault (List (String × String) × List Char) :=
  match _ : entry? first s with
  | .error fault => .error fault
  | .ok (none, rest) => .ok ([], rest)
  | .ok (some member, rest) =>
    (entriesFrom false rest).map fun (members, rest) => (member :: members, rest)
termination_by s.length
decreasing_by exact entry?_shorter ‹_›

/-- Reads an object of strings. A key may come more than once. -/
def entries : Reader (List (String × String)) := do
  match ← peek with
  | '{' => do
    skip
    entriesFrom true
  | _ => wrongType "a map"

/-! ## Records -/

/-- A field of a record: its key, and how its value is read into the record. -/
structure RecordField (σ : Type) where
  key : String
  read : σ → Reader σ

variable {σ : Type}

/-- Fills a record from the members of an object. `fields` are all its fields and `unseen` those
that were not given yet. -/
def members (fields unseen : List (RecordField σ)) (first : Bool) (record : σ) : Reader σ := do
  match ← key? first with
  | none => pure record
  | some key =>
    match _ : unseen.find? (·.key == key) with
    | some field => do
      token ':'
      let record ← field.read record
      members fields (unseen.eraseP (·.key == key)) false record
    | none =>
      if fields.any (·.key == key) then fail (.schema (.duplicateField key))
      else fail (.schema (.unknownField key (fields.map (·.key))))
termination_by unseen.length
decreasing_by
  have hfound : unseen.find? (·.key == key) = some field := ‹_›
  have hmem := List.mem_of_find?_eq_some hfound
  have hkey := List.find?_some hfound
  have hlen : (unseen.eraseP (·.key == key)).length = unseen.length - 1 :=
    List.length_eraseP_of_mem hmem hkey
  have := List.length_pos_of_mem hmem
  omega

/-- Fills a record from the elements of an array, which are no more than its fields. -/
def elements : List (RecordField σ) → Bool → σ → Reader σ
  | [], _, record => do
    token ']'
    pure record
  | field :: rest, first, record => do
    let c ← peek
    if c = ']' then
      skip
      pure record
    else
      if !first then token ','
      elements rest false (← field.read record)

/-- Reads a record in either spelling, over the values that its fields have already. -/
def record (name : String) (fields : List (RecordField σ)) (start : σ) : Reader σ := do
  match ← peek with
  | '[' => do
    skip
    elements fields true start
  | '{' => do
    skip
    members fields fields true start
  | _ => wrongType ("struct " ++ name)

end MipsWords.Json.Reader
