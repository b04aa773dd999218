import MipsWords.Command.Run

/-!
# The program `mdma`

Reads the files that a command line names, does the work, and prints it. A run
reads at most two files: the settings and then the table that the command line
or the settings name.
-/

namespace MipsWords.Command

/-- A system's error number, which some calls report negated. -/
def errorNumber (code : UInt32) : UInt32 := if code < 0x80000000 then code else 0 - code

/-- The failure of an operation on a file, by the error of the system. -/
def readFailure (error : IO.Error) : ReadFailure :=
  match error with
  | .noFileOrDirectory .. => .notFound
  | .inappropriateType _ code _ => if errorNumber code = 20 then .notDirectory else .isDirectory
  | .invalidArgument _ code detail =>
    if errorNumber code = 36 then .nameTooLong else .other detail
  | other => .other (toString other)

/-- Reads a whole file as text. -/
def readText (path : String) : IO (Except ReadFailure String) := do
  if path.toList.contains '\x00' then return .error .nulInPath
  try
    let bytes ← IO.FS.readBinFile path
    match String.fromUTF8? bytes with
    | some text => return .ok text
    | none => return .error .notText
  catch error => return .error (readFailure error)

/-- The files that have been read, by path. -/
def known (read : List (String × Except ReadFailure String)) : Files := fun path =>
  match read.find? (·.1 == path) with
  | some (_, text) => text
  | none => .error .notFound

/-- Reads the files that an invocation needs. -/
def gather (i : Invocation) : IO Files := do
  let first ← i.config?.toList.mapM fun path => return (path, ← readText path)
  let table? := match settings (known first) i.config?, i.job with
    | .ok s, .disasm table? _ => tablePath? s table?
    | _, _ => none
  let second ← table?.toList.mapM fun path => return (path, ← readText path)
  return known (first ++ second)

end MipsWords.Command

open MipsWords.Command in
/-- Runs a command line on the files of the system and prints what it puts out. -/
def main (args : List String) : IO UInt32 := do
  let level := ((← IO.getEnv "RUST_LOG").bind Level.ofName?).getD defaultLevel
  let files ← match parse args with
    | .ok i => gather i
    | .error _ => pure (known [])
  let answer := run? files level args
  match answer with
  | none => IO.eprintln "error: wrong usage"
  | some run =>
    IO.print run.stdout
    IO.eprint run.stderr
  return (exitStatus answer).toUInt32
