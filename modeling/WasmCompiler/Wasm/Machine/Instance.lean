import WasmCompiler.Wasm.Binary.Decode
import WasmCompiler.Wasm.Machine.Room
import WasmCompiler.Wasm.Machine.Step
import WasmCompiler.Wasm.Validation

/-!
# Calling a program

From the binary form of a module to the result of one of its functions: the module is read and
validated, its imports are matched with the functions of the host, its memory is set up, and the
function is run.
-/

namespace WasmCompiler.Wasm

/-- Why a call has no result. -/
inductive RunError where
  /-- The bytes are not a valid module. -/
  | load
  /-- The module asks for what the host does not have. -/
  | link
  | missingExport (name : String)
  /-- The arguments do not fit the function. -/
  | arguments (name : String)
  | trap (name : String) (cause : Trap)
  /-- The function did not end. -/
  | endless (name : String)
  | host (fault : HostFault)
deriving DecidableEq, Repr

/-- A trap in words. -/
def Trap.text : Trap → String
  | .unreachable => "unreachable code was reached"
  | .divideByZero => "division by zero"
  | .integerOverflow => "integer overflow"
  | .outOfBounds => "memory access out of bounds"
  | .stackExhausted => "call stack exhausted"
  | .stuck => "invalid code"

/-- The error in words, after the stage at which it arose. -/
def RunError.message : RunError → String
  | .load => "[load] Failed to load WASM module: not a valid module"
  | .link => "[instantiate] Failed to instantiate: unknown import"
  | .missingExport name => "[get_func] Export '" ++ name ++ "' not found"
  | .arguments name => "[call] Call to '" ++ name ++ "' trapped: wrong arguments"
  | .trap name cause => "[call] Call to '" ++ name ++ "' trapped: " ++ cause.text
  | .endless name => "[call] Call to '" ++ name ++ "' trapped: no end"
  | .host fault => "[host] " ++ fault.message

/-- What a call leaves behind. -/
structure RunResult where
  output : String
  results : List Value
  /-- The memory after the call, if the host can see it. -/
  memory : Option Memory

namespace RunResult

/-- The result, if it is one integer. -/
def singleI32? (r : RunResult) : Option UInt32 :=
  match r.results with
  | [.i32 w] => some w
  | _ => none

/-- The result, if it is one float. -/
def singleF32? (r : RunResult) : Option Number.Single :=
  match r.results with
  | [.f32 x] => some x
  | _ => none

/-- The integer at an address of the memory after the call. -/
def word? (r : RunResult) (address : Nat) : Option UInt32 :=
  r.memory.bind (·.word? address)

end RunResult

/-! ### Instances -/

/-- The room on the call stack, in pairs of words: half a mebibyte, less what the host takes to
begin a call. It is the engine's choice, and no result about runs rests on the number. -/
def stackRoom : Nat := 32700

/-- A number of instructions that is as good as no limit. -/
def enoughSteps : Nat := 0x1000000000000000

/-- The function of the host that an import names. -/
def hostFunction? (entry : ImportEntry) (type : FuncType) : Option Callee :=
  if entry.module = "env" ∧ type = ⟨[.i32], []⟩ then
    if entry.name = "print" then some (.host .print)
    else if entry.name = "printString" then some (.host .printString)
    else none
  else none

namespace Module

/-- The functions of a module, imports first. -/
def callees? (m : Module) (types : List FuncType) : Option (List Callee) := do
  let imported ← (m.imports.zip types).mapM fun (entry, type) => hostFunction? entry type
  let defined := (types.drop m.imports.length).zip m.codes
  let functions := types.toArray
  some (imported ++ defined.map fun (type, code) =>
    .defined type code (Room.ofFunction functions type code))

/-- Whether the memory is exported under the name by which the host knows it. -/
def exportsMemory (m : Module) (memoryName : String) : Bool :=
  m.entries.any fun e => e.name = memoryName && e.target = .memory 0

/-- The function that is exported under a name. -/
def exportedFunction? (m : Module) (name : String) : Option Nat :=
  m.entries.findSome? fun e =>
    match e.target with
    | .function index => if e.name = name then some index else none
    | .memory _ => none

/-- The memory of a module with its segments in it. -/
def initialMemory? (m : Module) : Option Memory :=
  m.segments.foldlM Memory.load? (.zero (m.memories.head?.getD 0))

/-- What a module needs to run. -/
def instantiate? (m : Module) (memoryName : String) : Option (Environment × Store) := do
  let types ← m.functionTypes?
  let functions ← m.callees? types
  let memory ← m.initialMemory?
  some
    ({ functions := functions.toArray
       exportsMemory := m.exportsMemory memoryName
       grantsPages := (· ≤ Validation.maxPages)
       stackRoom := stackRoom },
     { memory, globals := m.globals.toArray, host := .initial })

/-- Calls an exported function. A fault of the host is an error even if the function ends. -/
def callExported (m : Module) (memoryName name : String) (args : List Value) :
    Except RunError RunResult := do
  let some (env, store) := m.instantiate? memoryName | throw .link
  let some index := m.exportedFunction? name | throw (.missingExport name)
  let some (.defined type ..) := env.functions[index]? | throw (.missingExport name)
  unless args.map (·.type) = type.params do
    throw (.arguments name)
  match (Machine.calling index args type.results.length store).run env enoughSteps with
  | none => throw (.endless name)
  | some (.error trap) => throw (.trap name trap)
  | some (.ok (results, store)) =>
    match store.host.fault with
    | some fault => throw (.host fault)
    | none =>
      return {
        output := store.host.output
        results
        memory := if env.exportsMemory then some store.memory else none }

end Module

/-- Reads a module and calls a function that it exports. -/
def callExported (bytes : List UInt8) (memoryName name : String) (args : List Value) :
    Except RunError RunResult :=
  match Binary.decode? bytes with
  | some m => if m.isValid then m.callExported memoryName name args else .error .load
  | none => .error .load

end WasmCompiler.Wasm
