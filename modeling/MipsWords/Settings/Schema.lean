import MipsWords.Json.Value
import MipsWords.Settings

/-!
# What a settings value denotes

The schema of a settings file as a relation between JSON values and settings,
said part by part: a part that is given must have its type and is what the
settings hold, and for a part that is not given they hold the default.
-/

namespace MipsWords.Settings

open Json (Value)

/-- The spellings of a radix: its name, or an object with its name as the only key and `null`. -/
def DenotesRadix (radix : Radix) (v : Value) : Prop :=
  v = .string radix.text ∨ v = .object [(radix.text, .null)]

/-- The spellings of a path, and of its absence. -/
def DenotesPath (path? : Option String) (v : Value) : Prop :=
  match path? with
  | some path => v = .string path
  | none => v = .null

/-- A given part denotes what is held, and one not given leaves the default. -/
def Given {α : Type} (denotes : α → Value → Prop) (default held : α) : Option Value → Prop
  | some v => denotes held v
  | none => held = default

/-- The spellings of the section `general`. -/
def DenotesGeneral (trace : Bool) (v : Value) : Prop :=
  let keys := ["trace"]
  v.IsRecord keys ∧ Given (fun b v => v = .boolean b) false trace (v.part? keys "trace")

/-- The spellings of the section `disasm`, which is a style. -/
def DenotesStyle (style : Style) (v : Value) : Prop :=
  let keys := ["immediate_radix", "target_radix"]
  v.IsRecord keys ∧
    Given DenotesRadix .decimal style.immediate (v.part? keys "immediate_radix") ∧
    Given DenotesRadix .hex style.target (v.part? keys "target_radix")

/-- The spellings of the section `table`, which is a path if there is one. -/
def DenotesTable (path? : Option String) (v : Value) : Prop :=
  let keys := ["path"]
  v.IsRecord keys ∧ Given DenotesPath none path? (v.part? keys "path")

/-- The spellings of whole settings. -/
def Denotes (s : Settings) (v : Value) : Prop :=
  let keys := ["general", "disasm", "table"]
  v.IsRecord keys ∧
    Given DenotesGeneral false s.trace (v.part? keys "general") ∧
    Given DenotesStyle {} s.style (v.part? keys "disasm") ∧
    Given DenotesTable none s.tablePath? (v.part? keys "table")

end MipsWords.Settings
