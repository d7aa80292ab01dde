import WasmCompiler.Compile
import WasmCompiler.CommandLine.Arguments
import WasmCompiler.CommandLine.Directory
import WasmCompiler.Tree.Document
import WasmCompiler.Wasm.Machine.Instance

/-!
# The command

`begin` does what follows from the input file alone: it prints the syntax tree, or compiles and
says what is to be written where. `finish` goes on when the module was written: it runs the
program if that was asked for. `execute` puts both together on a directory.
-/

namespace WasmCompiler.CommandLine

/-- How a command ends. -/
structure Outcome where
  exit : Nat
  stdout : String
  stderr : String
deriving DecidableEq, Repr, Inhabited

namespace Outcome

def success (stdout stderr : String) : Outcome := ⟨0, stdout, stderr⟩

def failure (stderr : String) : Outcome := ⟨1, "", stderr⟩

/-- The words made no sense. -/
def misused : Outcome :=
  ⟨2, "", "usage: wasmc [OPTIONS] <INPUT>\n"⟩

end Outcome

/-- A command that is done, or one that has a module to write first. -/
inductive Stage where
  | done (outcome : Outcome)
  | write (path : String) (module : List UInt8) (log : String)

/-- A line of the log. -/
def logLine (text : String) : String :=
  "wasmc: " ++ text ++ "\n"

/-- The report of a compilation, if it is wanted. -/
def log (a : Arguments) (progress : List Progress) : String :=
  if a.verbose then String.join (progress.map fun p => logLine p.text) else ""

/-- Prints the syntax tree of a text. -/
def emitTree (a : Arguments) (source : String) : Outcome :=
  match (parseProgram source (.empty a.memoryStart)).1 with
  | .ok program => .success ((program.document floatDocument).pretty ++ "\n") ""
  | .error e => .failure (a.input ++ ": " ++ e.message ++ "\n")

/-- Where the module goes. -/
def outputPath (a : Arguments) : String :=
  a.output.getD (withExtension a.input "wasm")

/-- Compiles a text. -/
def compileInput (a : Arguments) (source : String) : Stage :=
  let reported := compileToBytesReported source { memoryStart := a.memoryStart }
  let log := log a reported.progress
  match reported.result with
  | .ok module => .write (outputPath a) module log
  | .error e => .done (.failure (log ++ a.input ++ ": " ++ e.message ++ "\n"))

/-- What follows from the input file. -/
def begin (a : Arguments) (source : Except FileError String) : Stage :=
  match source with
  | .error e => .done (.failure ("Failed to read " ++ a.input ++ ": " ++ e.message ++ "\n"))
  | .ok source => if a.emitTree then .done (emitTree a source) else compileInput a source

/-- The text of a result. -/
def valueText : Wasm.Value → String
  | .i32 w => toString w.toInt32.toInt
  | .f32 x => x.display

/-- Runs the program. -/
def runModule (module : List UInt8) (log : String) : Outcome :=
  match Wasm.callExported module memoryName mainName [] with
  | .ok r =>
    .success (r.output ++ String.join (r.results.map fun v => "=> " ++ valueText v ++ "\n")) log
  | .error e => .failure (log ++ "Runtime Error: " ++ e.message ++ "\n")

/-- What follows from writing the module. -/
def finish (a : Arguments) (path : String) (module : List UInt8) (log : String)
    (written : Except FileError Unit) : Outcome :=
  match written with
  | .error e => .failure (log ++ "Failed to write " ++ path ++ ": " ++ e.message ++ "\n")
  | .ok () =>
    let log := if a.verbose then log ++ logLine ("wrote " ++ path) else log
    if a.run then runModule module log else .success "" log

/-- Carries out a command in a directory. -/
def compileIn (a : Arguments) (d : Directory) : Outcome × Directory :=
  match begin a (d.readText a.input) with
  | .done outcome => (outcome, d)
  | .write path module log =>
    match d.write path module with
    | .ok d' => (finish a path module log (.ok ()), d')
    | .error e => (finish a path module log (.error e), d)

/-- What the command says about itself. -/
def helpText : String :=
  "Compiles a source text to WebAssembly.\n\n" ++
  "usage: wasmc [OPTIONS] <INPUT>\n\n" ++
  "  -o, --output <FILE>     where the module goes\n" ++
  "      --emit-ast          print the syntax tree instead of compiling\n" ++
  "  -r, --run               run the program\n" ++
  "      --memory-start <N>  address of the first string literal\n" ++
  "  -v, --verbose           report each stage\n" ++
  "  -h, --help              print this text\n" ++
  "  -V, --version           print the version\n"

def versionText : String := "wasmc 0.1.0\n"

/-- Carries out the command that words ask for. -/
def execute (words : List String) (d : Directory) : Outcome × Directory :=
  match request words with
  | .compile a => compileIn a d
  | .help => (.success helpText "", d)
  | .version => (.success versionText "", d)
  | .misused => (.misused, d)

end WasmCompiler.CommandLine
