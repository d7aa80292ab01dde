import WasmCompiler.CommandLine.Command

/-!
# The command line

Reads and writes files and prints what the command says.
-/

namespace WasmCompiler.CommandLine

/-- Whether a code is an error number of the system, which comes with either sign. -/
def isNumber (code number : UInt32) : Bool :=
  code = number || code = 0 - number

/-- The error of a failed file operation. -/
def fileError : IO.Error → FileError
  | .noFileOrDirectory .. => .missing
  | .inappropriateType _ code _ => if isNumber code 20 then .notDirectory else .isDirectory
  | .invalidArgument _ code details =>
    if isNumber code 36 then .nameTooLong else .other details
  | e => .other (toString e)

/-- Reads a file as text. -/
def readInput (path : String) : IO (Except FileError String) := do
  try
    let bytes ← IO.FS.readBinFile path
    match Text.Utf8.decode? bytes.toList with
    | some text => return .ok text
    | none => return .error .notText
  catch e =>
    return .error (fileError e)

/-- Writes a file. -/
def writeOutput (path : String) (bytes : List UInt8) : IO (Except FileError Unit) := do
  try
    IO.FS.writeBinFile path bytes.toByteArray
    return .ok ()
  catch e =>
    return .error (fileError e)

/-- Prints what a command says and gives its exit code. -/
def report (outcome : Outcome) : IO UInt32 := do
  IO.print outcome.stdout
  IO.eprint outcome.stderr
  return outcome.exit.toUInt32

/-- Carries out a command on the files of the system. -/
def carryOut (a : Arguments) : IO Outcome := do
  match begin a (← readInput a.input) with
  | .done outcome => return outcome
  | .write path module log => return finish a path module log (← writeOutput path module)

end WasmCompiler.CommandLine

open WasmCompiler.CommandLine in
def main (words : List String) : IO UInt32 := do
  match request words with
  | .compile a => report (← carryOut a)
  | .help => report (.success helpText "")
  | .version => report (.success versionText "")
  | .misused => report .misused
