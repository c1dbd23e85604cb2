import Recognizer.CommandLine.Execution

/-!
# A directory of files

Commands can be carried out on a directory that is kept as a value.  A path is
a sequence of names; empty names and single dots in it do not count.  A file
can be written where its directory exists and no directory has its name.
-/

namespace Recognizer

/-- The files of a directory with their paths, in the order of their
creation. -/
structure Directory where
  files : List FileContent
deriving DecidableEq

namespace Directory

/-- The names on a path. -/
def namesOf (path : String) : List String :=
  ((Text.parts '/' path.toList).map String.ofList).filter fun name =>
    name != "" && name != "."

/-- The path in its shortest form. -/
def normalized (path : String) : String :=
  "/".intercalate (namesOf path)

/-- Whether a path can be the path of a file of this directory: it must not be
empty, leave the directory, or end like the path of a directory. -/
def isFilePath (path : String) : Bool :=
  match path.toList with
  | [] => false
  | '/' :: _ => false
  | characters =>
      let last := (Text.parts '/' characters).getLastD []
      last != [] && last != ['.'] && !(namesOf path).contains ".."

/-- Whether there is a file whose path goes on behind the given names. -/
def hasDirectory (directory : Directory) (names : List String) : Bool :=
  names.isEmpty || directory.files.any fun file =>
    names.length < (namesOf file.path).length
      && names.isPrefixOf (namesOf file.path)

def read? (directory : Directory) (path : String) : Option (List UInt8) :=
  if isFilePath path then
    (directory.files.find? (·.path == normalized path)).map (·.bytes)
  else none

/-- The files with one of them written. -/
def replace (file : FileContent) : List FileContent → List FileContent
  | [] => [file]
  | head :: tail =>
      if head.path = file.path then file :: tail else head :: replace file tail

/-- Writes a file, where that is possible. -/
def write? (directory : Directory) (file : FileContent) : Option Directory :=
  let names := namesOf file.path
  if isFilePath file.path && directory.hasDirectory names.dropLast
      && !directory.hasDirectory names then
    some ⟨replace { file with path := normalized file.path } directory.files⟩
  else none

/-- Puts an outcome into effect.  Files are written before anything is shown,
and where that fails the command has failed. -/
def commit (directory : Directory) (outcome : Outcome) :
    Outcome × Directory :=
  match outcome.file with
  | none => (outcome, directory)
  | some file =>
      match directory.write? file with
      | some changed => (outcome, changed)
      | none => (.failure (.notWritten file.path), directory)

/-- Runs a tool in a directory. -/
def run (directory : Directory) (tool : String) (arguments : List String) :
    Outcome × Directory :=
  match Command.parse? tool arguments with
  | none => (.misuse, directory)
  | some command => directory.commit (command.run directory.read?)

/-- The files of the second directory that the first one does not have with the
same content. -/
def changes (before after : Directory) : List FileContent :=
  after.files.filter fun file => file ∉ before.files

end Directory

end Recognizer
