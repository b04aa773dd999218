/-!
# Files

All that the library asks of a file system is the text behind a path, or why
there is none (`Files`). A `Directory` answers for a working directory whose
files are known; what lies above it is known to exist and nothing more.

A path is walked component by component. Every component, an empty one or a dot
included, needs a directory to stand in, so a slash after the name of a file is
one too many.
-/

namespace MipsWords

/-- Why a file could not be read as text. -/
inductive ReadFailure where
  /-- Some component of the path does not exist, or the path is empty. -/
  | notFound
  | isDirectory
  /-- A component that is not the last one, or that a slash follows, names a file. -/
  | notDirectory
  /-- The path, or a component of it, is longer than a file system takes. -/
  | nameTooLong
  | nulInPath
  | notText
  /-- Any other cause, in the words of the system. -/
  | other (reason : String)
  deriving DecidableEq, Repr, Inhabited

/-- The failure in words. -/
def ReadFailure.reason : ReadFailure → String
  | notFound => "No such file or directory (os error 2)"
  | isDirectory => "Is a directory (os error 21)"
  | notDirectory => "Not a directory (os error 20)"
  | nameTooLong => "File name too long (os error 36)"
  | nulInPath => "file name contained an unexpected NUL byte"
  | notText => "stream did not contain valid UTF-8"
  | other reason => reason

/-- What reading each path gives. -/
abbrev Files := String → Except ReadFailure String

/-- The files of a working directory: their paths, by component, and their bytes. -/
structure Directory where
  files : List (List String × ByteArray)

namespace Directory

/-- The components of a path, those of no effect included. -/
def components (path : String) : List String := path.splitOn "/"

/-- The directory with the given files, each under its relative path. -/
def ofFiles (files : List (String × ByteArray)) : Directory :=
  ⟨files.map fun (path, bytes) =>
    ((components path).filter fun name => name ≠ "" && name ≠ ".", bytes)⟩

/-- Where a walk along a path has come to. -/
inductive Place where
  /-- A directory at or under the working directory. -/
  | inside (path : List String)
  | outside
  | file (bytes : ByteArray)

/-- The longest name of a file, in bytes. -/
def maxName : Nat := 255

/-- The longest path, in bytes. -/
def maxPath : Nat := 4095

/-- What a name stands for in a directory at or under the working directory. -/
def lookup (d : Directory) (path : List String) (name : String) : Except ReadFailure Place :=
  let full := path ++ [name]
  match d.files.find? (·.1 == full) with
  | some (_, bytes) => .ok (.file bytes)
  | none => if d.files.any (full.isPrefixOf ·.1) then .ok (.inside full) else .error .notFound

/-- Goes on from a place by one component. -/
def step (d : Directory) (place : Place) (name : String) : Except ReadFailure Place :=
  match place with
  | .file _ => .error .notDirectory
  | .outside =>
    if name = "" ∨ name = "." ∨ name = ".." then .ok .outside
    else if maxName < name.utf8ByteSize then .error .nameTooLong
    else .error .notFound
  | .inside path =>
    if name = "" ∨ name = "." then .ok (.inside path)
    else if name = ".." then
      .ok (if path.isEmpty then .outside else .inside path.dropLast)
    else if maxName < name.utf8ByteSize then .error .nameTooLong
    else d.lookup path name

/-- The text of a file by its path, or why it cannot be read. -/
def read (d : Directory) (path : String) : Except ReadFailure String :=
  if path.toList.contains '\x00' then .error .nulInPath
  else if path = "" then .error .notFound
  else if maxPath < path.utf8ByteSize then .error .nameTooLong
  else do
    let start := if path.toList.head? = some '/' then .outside else .inside []
    match ← (components path).foldlM d.step start with
    | .file bytes =>
      match String.fromUTF8? bytes with
      | some text => .ok text
      | none => .error .notText
    | _ => .error .isDirectory

end Directory

end MipsWords
