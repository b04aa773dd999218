import MipsWords.Command.Arguments

/-!
# The manual

A page tells what it is about and how the line is written, and then lists what
can stand in the line. What a run does with a request for help does not depend
on these words: a run takes any manual, and `Manual.standard` has the words of
this program.
-/

namespace MipsWords.Command

/-- The text of every page, without the line feed at its end. -/
abbrev Manual := Page → String

namespace Manual

/-- A heading with a line for each thing under it. -/
def part (heading : String) (lines : List String) : String :=
  "\n".intercalate ((heading ++ ":") :: lines)

/-- What a page is about, how the line is written, and the parts of the page. -/
def sheet (about usage : String) (parts : List String) : String :=
  "\n\n".intercalate (about :: ("Usage: mdma " ++ usage) :: parts)

/-- What a task does, in one line. -/
def purpose : Task → String
  | .classify => "Print the format and field values of each word"
  | .disasm => "Disassemble each word"
  | .reg => "Render register codes as `$name`"

/-- What the word `help` does, in one line. -/
def helpPurpose : String := "Print this message or the help of the given subcommand(s)"

/-- What the program does, at length. -/
def preface : String :=
  "\n".intercalate [
    "Classify 32-bit MIPS words into R, I, J, or shift format and render them.",
    "",
    "Words are 32-character binary strings (most-significant bit first) or 0x hex literals.",
    "",
    "Examples:",
    "  mdma classify 0x012A4020",
    "  mdma disasm 00000001001010100100000000100000 0x08000010",
    "  mdma reg 29 31"]

/-- The words that can stand first, each with what it does. -/
def commands : String :=
  part "Commands" [
    "  classify  " ++ purpose .classify,
    "  disasm    " ++ purpose .disasm,
    "  reg       " ++ purpose .reg,
    "  help      " ++ helpPurpose]

/-- The page of a task, with what its operands are and the options of its own. -/
def taskSheet (task : Task) (operand meaning : String) (options : List String) : String :=
  sheet (purpose task) (task.name ++ " [OPTIONS] <" ++ operand ++ ">...") [
    part "Arguments" ["  <" ++ operand ++ ">...  " ++ meaning],
    part "Options" (
      "  -c, --config <CONFIG>  JSON configuration file" :: options ++
        ["  -h, --help             Print help"])]

/-- The words of this program. -/
def standard : Manual
  | .summary =>
    sheet "MIPS instruction format classifier and disassembler" "[OPTIONS] <COMMAND>" [commands,
      part "Options" [
        "  -c, --config <CONFIG>  JSON configuration file",
        "  -h, --help             Print help (see more with '--help')",
        "  -V, --version          Print version"]]
  | .program =>
    sheet preface "[OPTIONS] <COMMAND>" [commands,
      part "Options" ["  -c, --config <CONFIG>\n          JSON configuration file"],
      "  -h, --help\n          Print help (see a summary with '-h')",
      "  -V, --version\n          Print version"]
  | .task .classify => taskSheet .classify "WORDS" "Instruction words" []
  | .task .disasm =>
    taskSheet .disasm "WORDS" "Instruction words"
      ["      --table <TABLE>    JSON mnemonic table (overrides the configuration file)"]
  | .task .reg => taskSheet .reg "CODES" "Register codes (0-31)" []
  | .help =>
    sheet helpPurpose "help [COMMAND]..." [
      part "Arguments" ["  [COMMAND]...  Print help for the subcommand(s)"]]

end Manual

end MipsWords.Command
