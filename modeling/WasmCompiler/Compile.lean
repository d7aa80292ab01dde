import WasmCompiler.Lowering.Program
import WasmCompiler.Tree.Parser.Stmt
import WasmCompiler.Wasm.Binary.Encode
import WasmCompiler.Wasm.Validation

/-!
# Compilation

From a source text to a descriptor and to the binary form of a module. A compilation reports its
progress, also when it fails.
-/

namespace WasmCompiler

open Wasm (Descriptor)

structure CompileOptions where
  /-- Where the string literals begin. -/
  memoryStart : Nat := defaultMemoryStart
  /-- Whether the host can see the memory. -/
  exportsMemory : Bool := true
deriving DecidableEq, Repr, Inhabited

/-- Why a compilation failed. The error of an earlier stage is not wrapped in a later one. -/
inductive CompileError where
  | lex (error : LexError)
  | parse (error : ParseError)
  | semantic (error : SemanticError)
  | lowering (error : LoweringError)
  | invalidModule
  | memoryStart (start : Nat)

namespace CompileError

def ofParse : ParseError → CompileError
  | .lex error => .lex error
  | other => .parse other

def ofLowering : LoweringError → CompileError
  | .semantic error => .semantic error
  | other => .lowering other

/-- The error in words. -/
def message : CompileError → String
  | .lex error => "Lex error: " ++ error.message
  | .parse error => "Parse error: " ++ error.message
  | .semantic error => "Semantic error: " ++ error.message
  | .lowering error => "Codegen error: " ++ error.message
  | .invalidModule => "Generated module failed validation: the code does not type-check"
  | .memoryStart start =>
    "Invalid options: memory start " ++ toString start ++ " is above " ++ toString maxMemoryStart

end CompileError

/-! ### Progress -/

/-- What a compilation has done. -/
inductive Progress where
  | parsed (statements literals : Nat)
  | lowered (function : Wasm.Function)
  | arranged (heapBase pages : Nat)
  | emitted (size : Nat)

/-- The report of a step, a line without its end. -/
def Progress.text : Progress → String
  | .parsed statements literals =>
    "parsed " ++ toString statements ++ " top-level statement(s), " ++ toString literals ++
      " string literal(s)"
  | .lowered f =>
    "lowered " ++ f.name ++ " (" ++ toString f.type.params.length ++ " param(s), " ++
      toString f.locals.length ++ " local(s), " ++ toString f.instructionCount ++
      " instruction(s))"
  | .arranged heapBase pages =>
    "heap starts at " ++ toString heapBase ++ ", " ++ toString pages ++ " page(s) of memory"
  | .emitted size => "emitted " ++ toString size ++ " byte(s), validation passed"

/-- A result with the steps that led to it, or to its failure. -/
structure Reported (α : Type) where
  progress : List Progress
  result : Except CompileError α

/-- Goes on from a result, if there is one. -/
def Reported.andThen {α β : Type} (r : Reported α) (f : α → Reported β) : Reported β :=
  match r.result with
  | .ok a =>
    let next := f a
    ⟨r.progress ++ next.progress, next.result⟩
  | .error e => ⟨r.progress, .error e⟩

/-! ### Stages -/

/-- The symbol table at the start of a compilation. -/
def CompileOptions.symbols (options : CompileOptions) : SymbolTable :=
  { SymbolTable.empty options.memoryStart with exportsMemory := options.exportsMemory }

/-- Parses a text with a symbol table, whose string pool collects the literals. -/
def SymbolTable.parse (t : SymbolTable) (source : String) :
    Except ParseError Program × SymbolTable :=
  let (result, strings) := parseProgram source t.strings
  (result, { t with strings })

/-- Parses a text, unless its literals are to begin too high. -/
def parseReported (source : String) (options : CompileOptions) :
    Reported (Program × SymbolTable) :=
  if maxMemoryStart < options.memoryStart then
    ⟨[], .error (.memoryStart options.memoryStart)⟩
  else
    match options.symbols.parse source with
    | (.error e, _) => ⟨[], .error (.ofParse e)⟩
    | (.ok program, t) =>
      ⟨[.parsed program.statements.length t.strings.segments.length], .ok (program, t)⟩

/-- Lowers a program. -/
def lowerReported (program : Program) (t : SymbolTable) : Reported Descriptor :=
  match generate program t with
  | .error e _ => ⟨[], .error (.ofLowering e)⟩
  | .ok d _ => ⟨d.functions.map .lowered ++ [.arranged d.heapBase d.memoryPages], .ok d⟩

/-- Puts a descriptor into binary form, if it is valid. -/
def emitReported (d : Descriptor) : Reported (List UInt8) :=
  let m := d.toModule memoryName
  if m.isValid then
    let bytes := Wasm.Binary.encode m
    ⟨[.emitted bytes.length], .ok bytes⟩
  else ⟨[], .error .invalidModule⟩

/-- Compiles a text to a descriptor, with a report. -/
def compileReported (source : String) (options : CompileOptions) : Reported Descriptor :=
  (parseReported source options).andThen fun (program, t) => lowerReported program t

/-- Compiles a text to the binary form of a valid module, with a report. -/
def compileToBytesReported (source : String) (options : CompileOptions) :
    Reported (List UInt8) :=
  (compileReported source options).andThen emitReported

/-- Compiles a text to a descriptor. -/
def compile (source : String) (options : CompileOptions) : Except CompileError Descriptor :=
  (compileReported source options).result

/-- Compiles a text to the binary form of a valid module. -/
def compileToBytes (source : String) (options : CompileOptions) :
    Except CompileError (List UInt8) :=
  (compileToBytesReported source options).result

end WasmCompiler
