import MipsWords.Text.Numeral

/-!
# Command line arguments

A command line names a task and its operands. Two options take a value: the
settings file, which may be named before or after the task, and the table file,
which belongs to one task alone.

Arguments are taken from left to right, and the first one that cannot stand
where it stands ends the reading (`Stop`). A request for the version or for help
ends it too, so what comes before such a request is checked and what comes after
is not. Only behind the word `help`, which stands in place of a task, names are
read on. After `--` every argument is an operand.

An option may be given once on each side of the task; the one after it counts.
-/

namespace MipsWords.Command

/-- What a run does with its operands. -/
inductive Task where
  | classify | disasm | reg
  deriving DecidableEq, Repr, Inhabited

/-- The word that names a task on a command line. -/
def Task.name : Task → String
  | classify => "classify" | disasm => "disasm" | reg => "reg"

/-- The tasks, in the order of their presentation. -/
def Task.all : List Task := [.classify, .disasm, .reg]

/-- The task that a word names. Nothing else names it, no beginning of the word and no capitals. -/
def Task.ofName? (name : String) : Option Task := all.find? (·.name == name)

/-- A page of the manual. -/
inductive Page where
  /-- The program in short. -/
  | summary
  /-- The program at length. -/
  | program
  | task (task : Task)
  /-- The word `help` itself. -/
  | help
  deriving DecidableEq, Repr, Inhabited

/-- The page that a word leads to from another. Only the program has such pages under it. -/
def Page.next? : Page → String → Option Page
  | program, name => if name = "help" then some help else (Task.ofName? name).map task
  | summary, _ | task _, _ | help, _ => none

/-- An option that takes a value. -/
inductive Choice where
  | config | table
  deriving DecidableEq, Repr, Inhabited

/-- A task with all it works on. -/
inductive Job where
  | classify (words : List String)
  | disasm (table? : Option String) (words : List String)
  | reg (codes : List Nat)
  deriving DecidableEq, Repr, Inhabited

/-- A command line that asks for work. -/
structure Invocation where
  config? : Option String
  job : Job
  deriving DecidableEq, Repr, Inhabited

/-- Why a command line asks for no work. -/
inductive Stop where
  | usage
  | version
  | help (page : Page)
  deriving DecidableEq, Repr, Inhabited

/-! ## One argument -/

/-- What an argument looks like before its place is known. -/
inductive Argument where
  | separator
  /-- An option by name, `--name` or `--name=value`. -/
  | long (name : String) (value? : Option String)
  /-- An option by letter, with whatever is written right behind the letter. -/
  | short (letter : Char) (attached : List Char)
  /-- Anything else, a lone `-` included. -/
  | plain (text : String)
  deriving DecidableEq, Repr, Inhabited

/-- What an argument looks like by its first characters. -/
def Argument.ofText (text : String) : Argument :=
  match text.toList with
  | ['-', '-'] => separator
  | '-' :: '-' :: rest =>
    let value? := match rest.dropWhile (· ≠ '=') with
      | '=' :: value => some (String.ofList value)
      | _ => none
    long (String.ofList (rest.takeWhile (· ≠ '='))) value?
  | '-' :: letter :: attached => short letter attached
  | _ => plain text

/-- The value written right behind the letter of an option, without an equals sign before it. -/
def attachedValue? : List Char → Option String
  | [] => none
  | '=' :: value => some (String.ofList value)
  | value => some (String.ofList value)

/-- The largest code that an operand may give, of 32 bits. -/
def maxCode : Nat := 0xffffffff

/-- A register code in decimal, with an optional sign, within 32 bits. -/
def code? (text : String) : Option Nat :=
  match text.toList with
  | '-' :: digits => (Numeral.read? 10 digits).filter (· = 0)
  | '+' :: digits => (Numeral.read? 10 digits).filter (· ≤ maxCode)
  | digits => (Numeral.read? 10 digits).filter (· ≤ maxCode)

/-! ## From left to right -/

/-- What the next argument is taken for. -/
inductive Pending where
  /-- The value of an option. -/
  | value (option : Choice)
  /-- A word that leads on from a page of the manual. -/
  | topic (page : Page)
  deriving DecidableEq, Repr, Inhabited

/-- What the arguments so far have said. -/
structure Parsed where
  task? : Option Task := none
  /-- The settings file named before the task. -/
  outer? : Option String := none
  /-- The settings file named after it. -/
  inner? : Option String := none
  table? : Option String := none
  operands : List String := []
  pending? : Option Pending := none
  /-- Whether `--` has been passed. -/
  separated : Bool := false
  /-- Whether a value in front of the task has been refused, which counts at the next option there
  or at the end of the line. -/
  refused : Bool := false
  deriving DecidableEq, Repr, Inhabited

namespace Parsed

/-- Whether a value in front of the task has been refused and no task has been named since. -/
def isRefused (p : Parsed) : Bool := p.refused && p.task?.isNone

/-- Whether what has been said on this side of the task can stand. Operands of `reg` are codes. -/
def isSound (p : Parsed) : Bool :=
  !p.isRefused && (p.task? ≠ some .reg || p.operands.all fun text => (code? text).isSome)

/-- What a request comes to, which is heard only if what stands before it is sound. -/
def request (p : Parsed) (stop : Stop) : Stop := if p.isSound then stop else .usage

/-- The page for a request for help: that of the task, or the given one if none has been named. -/
def page (p : Parsed) (whole : Page) : Page := (p.task?.map .task).getD whole

/-- Gives an option its value, which may not be empty and not be the second on its side. -/
def give (p : Parsed) (option : Choice) (value : String) : Except Stop Parsed :=
  if value = "" then .error .usage
  else
    match option with
    | .table =>
      if p.table?.isSome then .error .usage
      else .ok { p with table? := some value, pending? := none }
    | .config =>
      if p.task?.isSome then
        if p.inner?.isSome then .error .usage
        else .ok { p with inner? := some value, pending? := none }
      else if p.outer?.isSome then .error .usage
      else .ok { p with outer? := some value, pending? := none }

/-- Gives an option the value in the argument behind it. In front of the task, where only a settings
file can be named, a value that cannot be taken does not end the reading by itself. -/
def giveNext (p : Parsed) (option : Choice) (value : String) : Except Stop Parsed :=
  match p.give option value with
  | .ok q => .ok q
  | .error stop =>
    if option = .config ∧ p.task? = none then .ok { p with pending? := none, refused := true }
    else .error stop

/-- Takes an option, whose value is here or in the next argument. -/
def option (p : Parsed) (option : Choice) (value? : Option String) : Except Stop Parsed :=
  if p.isRefused then .error .usage
  else
    match value? with
    | some value => p.give option value
    | none => .ok { p with pending? := some (.value option) }

/-- Takes an argument that is no option: an operand, or the name of a task or `help` before that. -/
def plain (p : Parsed) (text : String) : Except Stop Parsed :=
  match p.task? with
  | some _ => .ok { p with operands := p.operands ++ [text] }
  | none =>
    match Task.ofName? text with
    | some task => .ok { p with task? := some task }
    | none =>
      if text = "help" then .ok { p with pending? := some (.topic .program) } else .error .usage

/-- Takes an argument behind `help`, which has led to a page. -/
def turn (p : Parsed) (page : Page) (text : String) : Except Stop Parsed :=
  match page.next? text with
  | some next => .ok { p with pending? := some (.topic next) }
  | none => .error .usage

/-- Takes an argument. -/
def step (p : Parsed) (text : String) : Except Stop Parsed :=
  if p.separated then .ok { p with operands := p.operands ++ [text] }
  else
    match p.pending?, Argument.ofText text with
    | some (.topic page), _ => p.turn page text
    | some (.value option), .plain value => p.giveNext option value
    | some (.value _), _ => .error .usage
    | none, .plain text => p.plain text
    | none, .separator => if p.task?.isSome then .ok { p with separated := true } else .error .usage
    | none, .long name value? =>
      if name = "config" then p.option .config value?
      else if name = "table" ∧ p.task? = some .disasm then p.option .table value?
      else if name = "help" ∧ value? = none then .error (p.request (.help (p.page .program)))
      else if name = "version" ∧ p.task? = none ∧ value? = none then .error (p.request .version)
      else .error .usage
    | none, .short letter attached =>
      if letter = 'c' then p.option .config (attachedValue? attached)
      else if letter = 'h' then .error (p.request (.help (p.page .summary)))
      else if letter = 'V' ∧ p.task? = none then .error (p.request .version)
      else .error .usage

/-- The work that has been asked for. -/
def work (p : Parsed) : Except Stop Invocation :=
  let config? := p.inner?.or p.outer?
  match p.task? with
  | none => .error .usage
  | some .classify => .ok ⟨config?, .classify p.operands⟩
  | some .disasm => .ok ⟨config?, .disasm p.table? p.operands⟩
  | some .reg =>
    match p.operands.mapM code? with
    | some codes => .ok ⟨config?, .reg codes⟩
    | none => .error .usage

/-- What a whole command line comes to. A task has at least one operand. -/
def finish (p : Parsed) : Except Stop Invocation :=
  match p.pending? with
  | some (.topic page) => .error (.help page)
  | some (.value _) => .error .usage
  | none => if p.refused ∨ p.operands = [] then .error .usage else p.work

end Parsed

/-- The work that a command line asks for, or why it asks for none. -/
def parse (args : List String) : Except Stop Invocation := do
  (← args.foldlM Parsed.step {}).finish

end MipsWords.Command
