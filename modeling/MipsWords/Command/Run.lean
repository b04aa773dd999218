import MipsWords.Command.Log
import MipsWords.Command.Manual
import MipsWords.Mnemonic.Edit
import MipsWords.Text.Characters
import MipsWords.Word.Text

/-!
# Running a command line

A run is a list of events in order: result lines, failures and log notices. The
two output streams and the exit status are views of that list, so that what is
logged can be left out without a change to the rest.

First the settings are read, then, for `disasm` alone, the table; if either
cannot be had, that one failure is all that happens. Then each operand adds its
own events, whatever the others do.

A request for the version or for help is answered by one result, the text asked
for, before any of this.
-/

namespace MipsWords.Command

/-- Something that happens in a run and can be seen on one of its two streams. -/
inductive Event where
  /-- A result, for the standard output. -/
  | line (text : String)
  /-- A failure, for the standard error. -/
  | failure (text : String)
  /-- A log record, for the standard error if the level shows it. -/
  | notice (notice : Notice)
  deriving DecidableEq, Repr, Inhabited

namespace Event

/-- What an event adds to the standard output. -/
def stdout : Event → String
  | line text => text ++ "\n"
  | failure _ | notice _ => ""

/-- What an event adds to the standard error. -/
def stderr : Event → String
  | line _ => ""
  | failure text => "error: " ++ text ++ "\n"
  | notice n => n.text ++ "\n"

/-- Whether the event is put out at a level; only notices can be left out. -/
def isShown (level : Level) : Event → Bool
  | notice n => level.shows n.level
  | line _ | failure _ => true

/-- Whether the event makes the run fail. -/
def isFailure : Event → Bool
  | failure _ => true
  | line _ | notice _ => false

end Event

/-! ## Operands -/

/-- The events of an operand that has no result: a notice, and a failure that names the operand. -/
def rejection (input : String) (error : Error) : List Event :=
  [.notice (.rejected input error), .failure (input ++ ": " ++ error.message)]

/-- The events of an operand that has the given result. -/
def report (input : String) : Except Error String → List Event
  | .ok text => [.line text]
  | .error error => rejection input error

/-- The result line of `classify`: the operand without blanks around it, and its fields. -/
def classifyLine (input : String) : Except Error String :=
  let trimmed := Blank.trim input
  (Word.parse trimmed).map fun w => trimmed ++ "\t" ++ (decode w).text

/-- The word of an operand and its line of assembly. -/
def disassembleInput (names : Lookup) (style : Style) (input : String) :
    Except Error (Word × String) := do
  let w ← Word.parse (Blank.trim input)
  let text ← disassemble names style w
  return (w, text)

/-- The result line of `disasm`: the word in hexadecimal, and its line of assembly. -/
def disasmLine (names : Lookup) (style : Style) (input : String) : Except Error String :=
  (disassembleInput names style input).map fun (w, text) => w.hexLiteral ++ "\t" ++ text

/-- The events of an operand of `classify`. -/
def classifyEvents (input : String) : List Event := report input (classifyLine input)

/-- The events of an operand of `disasm`, which notes every word it disassembles. -/
def disasmEvents (names : Lookup) (style : Style) (input : String) : List Event :=
  let noted := match disassembleInput names style input with
    | .ok (w, text) => [.notice (.disassembled w (Format.ofWord w) text)]
    | .error _ => []
  noted ++ report input (disasmLine names style input)

/-- The events of an operand of `reg`, which a failure names by its number. -/
def regEvents (code : Nat) : List Event := report (Numeral.decimal code) (Register.render code)

/-! ## Runs -/

/-- What a run put out, and the level its notices are shown at. -/
structure Run where
  level : Level
  events : List Event
  deriving DecidableEq, Repr, Inhabited

namespace Run

/-- The events that the level of the run lets through. -/
def shown (r : Run) : List Event := r.events.filter (Event.isShown r.level)

/-- The standard output of the run. -/
def stdout (r : Run) : String := String.join (r.shown.map Event.stdout)

/-- The standard error of the run. -/
def stderr (r : Run) : String := String.join (r.shown.map Event.stderr)

/-- Zero if nothing failed, otherwise one. -/
def status (r : Run) : Nat := if r.events.any Event.isFailure then 1 else 0

end Run

/-- The settings of the file that a command line names, or else the default settings. -/
def settings (files : Files) : Option String → Except Error Settings
  | some path => Settings.ofFile files path
  | none => .ok {}

/-- The path of the table file in use, if it is not the built-in table. -/
def tablePath? (s : Settings) (named? : Option String) : Option String := named?.or s.tablePath?

/-- The table in use, and what is noted of it. -/
def table (files : Files) : Option String → Except Error (Table × List Event)
  | some path =>
    (Table.ofFile files path).map fun t =>
      (t, [.notice (.tableLoaded t.opcodes.size t.functions.size)])
  | none => .ok (.builtin, [])

/-- What happens in a job under given settings, which only `disasm` looks at. -/
def Job.events (files : Files) (s : Settings) : Job → List Event
  | .classify words => words.flatMap classifyEvents
  | .reg codes => codes.flatMap regEvents
  | .disasm table? words =>
    match table files (tablePath? s table?) with
    | .error error => [.failure error.message]
    | .ok (t, noted) => noted ++ words.flatMap (disasmEvents t.resolve s.style)

/-- Does the work of a command line. Settings that ask for every record overrule `level`. -/
def Invocation.run (files : Files) (level : Level) (i : Invocation) : Run :=
  match settings files i.config? with
  | .error error => ⟨level, [.failure error.message]⟩
  | .ok s => ⟨if s.trace then .trace else level, i.job.events files s⟩

/-- The answer to a request for the version. -/
def versionText : String := "mdma 0.3.0"

/-- The level of a run that is given none. -/
def defaultLevel : Level := .warn

/-- What a run puts out that is asked for the version or for help, and nothing for a wrong usage. -/
def Stop.answer? (manual : Manual) : Stop → Option String
  | usage => none
  | version => some versionText
  | help page => some (manual page)

/-- What a command line comes to; nothing if it is used wrongly. No file is read for an answer. -/
def run? (files : Files) (level : Level) (args : List String)
    (manual : Manual := Manual.standard) : Option Run :=
  match parse args with
  | .ok i => some (i.run files level)
  | .error stop => (stop.answer? manual).map fun text => ⟨level, [.line text]⟩

/-- The exit status that a command line comes to, which is two if it is used wrongly. -/
def exitStatus : Option Run → Nat
  | some run => run.status
  | none => 2

end MipsWords.Command
