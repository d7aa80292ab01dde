import WasmCompiler.CommandLine.Path
import WasmCompiler.Text.Utf8

/-!
# Files

A directory is the files that can be reached from it, by their places. The directories on the way
to a file exist with it; the working directory, those above it, the root and a few that every
system has exist anyway, and so does the file that swallows what is written to it.

A path is walked name by name. Each name is looked up in what has been reached, which has to be a
directory, so the first fault on the way decides.
-/

namespace WasmCompiler.CommandLine

/-- Why a file cannot be read or written. -/
inductive FileError where
  | missing
  | notDirectory
  | isDirectory
  | nameTooLong
  | notText
  | other (description : String)
deriving DecidableEq, Repr

/-- The error in words. -/
def FileError.message : FileError → String
  | .missing => "No such file or directory (os error 2)"
  | .notDirectory => "Not a directory (os error 20)"
  | .isDirectory => "Is a directory (os error 21)"
  | .nameTooLong => "File name too long (os error 36)"
  | .notText => "stream did not contain valid UTF-8"
  | .other description => description

/-- The longest name in a path, in bytes. -/
def maxNameBytes : Nat := 255

/-- The longest path, in bytes. -/
def maxPathBytes : Nat := 4095

/-- The directories below the root that every system has. -/
def standardDirectories : List Place :=
  ["dev", "etc", "tmp", "usr"].map Place.root.child

/-- The file that swallows what is written to it and is always empty. -/
def nullDevice : Place := ⟨.root, ["dev", "null"]⟩

/-- What is at a place. -/
inductive Node where
  | directory
  | file (content : List UInt8)

structure Directory where
  files : List (Place × List UInt8)
deriving DecidableEq, Repr

namespace Directory

/-- A working directory with the files of some paths. -/
def ofFiles (files : List (String × List UInt8)) : Directory :=
  ⟨files.map fun (path, content) => (place path, content)⟩

/-- Whether there is a directory at a place. -/
def hasDirectory (d : Directory) (p : Place) : Bool :=
  p.names.isEmpty || standardDirectories.contains p ||
    d.files.any fun (file, _) =>
      file.anchor = p.anchor && p.names.isPrefixOf file.names && p.names ≠ file.names

/-- What is at a place, if anything is. -/
def node? (d : Directory) (p : Place) : Option Node :=
  if p = nullDevice then some (.file [])
  else
    match d.files.lookup p with
    | some content => some (.file content)
    | none => if d.hasDirectory p then some .directory else none

/-! ### Walking -/

/-- Demands that there is a directory at a place. -/
def expectDirectory (d : Directory) (p : Place) : Except FileError Unit :=
  match d.node? p with
  | some .directory => .ok ()
  | some (.file _) => .error .notDirectory
  | none => .error .missing

/-- Looks a name up at a place. -/
def enter (d : Directory) (p : Place) (name : String) : Except FileError Place := do
  d.expectDirectory p
  if maxNameBytes < name.utf8ByteSize then .error .nameTooLong else .ok (p.child name)

/-- Looks names up, one after the other. What the last one stands for need not exist. -/
def walk (d : Directory) (p : Place) (names : List String) : Except FileError Place :=
  names.foldlM d.enter p

/-- Demands that a path is not too long to be walked at all. -/
def expectLength (path : String) : Except FileError Unit :=
  if maxPathBytes < path.utf8ByteSize then .error .nameTooLong else .ok ()

/-! ### Reading and writing -/

/-- Reads a file. A slash at the end asks for a directory, which cannot be read. -/
def read (d : Directory) (path : String) : Except FileError (List UInt8) := do
  expectLength path
  match d.node? (← d.walk (start path) (components path)) with
  | some (.file content) => if path.endsWith "/" then .error .notDirectory else .ok content
  | some .directory => .error .isDirectory
  | none => .error .missing

/-- The content of a file, if it can be read. -/
def content? (d : Directory) (path : String) : Option (List UInt8) :=
  (d.read path).toOption

/-- Reads a file as text. -/
def readText (d : Directory) (path : String) : Except FileError String := do
  match Text.Utf8.decode? (← d.read path) with
  | some text => .ok text
  | none => .error .notText

/-- Puts a file at a place, instead of one that is there. -/
def put (d : Directory) (p : Place) (content : List UInt8) : Directory :=
  if p = nullDevice then d else ⟨(p, content) :: d.files.filter (·.1 ≠ p)⟩

/-- Writes a file, which is made if it does not exist. The directory that it is to be in has to
exist; a path whose last name can only be a directory's is refused after that. -/
def write (d : Directory) (path : String) (content : List UInt8) :
    Except FileError Directory := do
  expectLength path
  let names := components path
  let parent ← d.walk (start path) names.dropLast
  d.expectDirectory parent
  match names.getLast? with
  | none => .error .isDirectory
  | some name =>
    if path.endsWith "/" || name = "." || name = ".." then .error .isDirectory
    else
      let file ← d.enter parent name
      match d.node? file with
      | some .directory => .error .isDirectory
      | _ => .ok (d.put file content)

end Directory

end WasmCompiler.CommandLine
