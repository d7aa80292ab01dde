import WasmCompiler.Wasm.Module

/-!
# Validation

The typing rules of WebAssembly for the instructions used here, as a function from the types on
the stack before some code to those after it. Code after a jump is never reached; there the stack
may be taken to hold whatever is asked of it.
-/

namespace WasmCompiler.Wasm

namespace Validation

/-- The most parameters, results and locals that a function may have. -/
def maxParams : Nat := 1000

def maxResults : Nat := 1000

def maxLocals : Nat := 50000

/-- The most pages that a memory may have. -/
def maxPages : Nat := 65536

/-- The most bytes that a name may have. -/
def maxNameBytes : Nat := 100000

/-- What is known of the stack above the beginning of the innermost block. -/
structure Stack where
  /-- The types of the values, the top one first. -/
  known : List ValueType
  /-- Whether the code is not reached, so any value may lie below the known ones. -/
  unreached : Bool
deriving DecidableEq, Repr

namespace Stack

/-- The stack at the beginning of a block. -/
def empty : Stack := ⟨[], false⟩

/-- The stack after a jump. -/
def dead : Stack := ⟨[], true⟩

/-- Takes a value of a type. -/
def pop (type : ValueType) (s : Stack) : Option Stack :=
  match s.known with
  | t :: rest => if t = type then some { s with known := rest } else none
  | [] => if s.unreached then some s else none

/-- Takes a value of any type. -/
def popAny (s : Stack) : Option Stack :=
  match s.known with
  | _ :: rest => some { s with known := rest }
  | [] => if s.unreached then some s else none

/-- Takes values, of which the last type is on top. -/
def popAll (types : List ValueType) (s : Stack) : Option Stack :=
  types.reverse.foldlM (fun s t => s.pop t) s

/-- Adds a value. -/
def push (type : ValueType) (s : Stack) : Stack :=
  { s with known := type :: s.known }

/-- Adds values, the last one on top. -/
def pushAll (types : List ValueType) (s : Stack) : Stack :=
  { s with known := types.reverse ++ s.known }

end Stack

/-- What the code of a function may refer to. -/
structure Context where
  functions : Array FuncType
  globals : Nat
  memories : Nat
  locals : Array ValueType
  /-- The results of the function. -/
  results : List ValueType
  /-- What a jump to each of the enclosing blocks has to bring, the innermost first. -/
  labels : List (List ValueType)

/-- The context of a block. -/
def Context.within (c : Context) (label : List ValueType) : Context :=
  { c with labels := label :: c.labels }

/-- Whether the stack at the end of a block holds the block's results and nothing else. -/
def endsWith (results : List ValueType) (s : Stack) : Bool :=
  match s.popAll results with
  | some rest => rest.known.isEmpty
  | none => false

mutual

/-- The stack after an instruction, if the instruction is valid. -/
def instr (c : Context) (s : Stack) : Instr → Option Stack
  | .unreachable => some .dead
  | .block result body => do
    let after ← instrs (c.within result.toList) .empty body
    guard (endsWith result.toList after)
    some (s.pushAll result.toList)
  | .loop result body => do
    -- a jump to a loop goes to its beginning, where nothing is wanted
    let after ← instrs (c.within []) .empty body
    guard (endsWith result.toList after)
    some (s.pushAll result.toList)
  | .branch result body none => do
    let s ← s.pop .i32
    -- without an alternate there is nothing to leave a result
    guard result.isNone
    let after ← instrs (c.within []) .empty body
    guard (endsWith [] after)
    some s
  | .branch result body (some alternate) => do
    let s ← s.pop .i32
    let after ← instrs (c.within result.toList) .empty body
    guard (endsWith result.toList after)
    let other ← instrs (c.within result.toList) .empty alternate
    guard (endsWith result.toList other)
    some (s.pushAll result.toList)
  | .br depth => do
    let label ← c.labels[depth]?
    let _ ← s.popAll label
    some .dead
  | .brIf depth => do
    let s ← s.pop .i32
    let label ← c.labels[depth]?
    let s ← s.popAll label
    some (s.pushAll label)
  | .ret => do
    let _ ← s.popAll c.results
    some .dead
  | .call function => do
    let type ← c.functions[function]?
    let s ← s.popAll type.params
    some (s.pushAll type.results)
  | .drop => s.popAny
  | .localGet index => do
    let type ← c.locals[index]?
    some (s.push type)
  | .localSet index => do
    let type ← c.locals[index]?
    s.pop type
  | .localTee index => do
    let type ← c.locals[index]?
    let s ← s.pop type
    some (s.push type)
  | .globalGet index => do
    guard (index < c.globals)
    some (s.push .i32)
  | .globalSet index => do
    guard (index < c.globals)
    s.pop .i32
  | .load type _ => do
    guard (0 < c.memories)
    let s ← s.pop .i32
    some (s.push type)
  | .store type _ => do
    guard (0 < c.memories)
    let s ← s.pop type
    s.pop .i32
  | .memorySize => do
    guard (0 < c.memories)
    some (s.push .i32)
  | .memoryGrow => do
    guard (0 < c.memories)
    let s ← s.pop .i32
    some (s.push .i32)
  | .i32Const _ => some (s.push .i32)
  | .f32Const _ => some (s.push .f32)
  | .i32Eqz => do
    let s ← s.pop .i32
    some (s.push .i32)
  | .i32Op _ => do
    let s ← s.popAll [.i32, .i32]
    some (s.push .i32)
  | .f32Neg => do
    let s ← s.pop .f32
    some (s.push .f32)
  | .f32Op op => do
    let s ← s.popAll [.f32, .f32]
    some (s.push op.result)
  | .f32ConvertI32S => do
    let s ← s.pop .i32
    some (s.push .f32)

/-- The stack after several instructions, if they are valid. -/
def instrs (c : Context) (s : Stack) : List Instr → Option Stack
  | [] => some s
  | i :: is => do
    let s ← instr c s i
    instrs c s is

end

/-- Whether the body of a function gives its results. -/
def body (c : Context) (code : List Instr) : Bool :=
  match instrs { c with labels := [c.results] } .empty code with
  | some after => endsWith c.results after
  | none => false

end Validation

open Validation

/-- Whether a signature keeps to the limits. -/
def FuncType.isValid (t : FuncType) : Bool :=
  t.params.length ≤ maxParams && t.results.length ≤ maxResults

/-- Whether a name keeps to the limit. -/
def isValidName (name : String) : Bool :=
  name.utf8ByteSize ≤ maxNameBytes

/-- Whether no two exports share a name. -/
def distinctNames : List String → Bool
  | [] => true
  | n :: ns => !ns.contains n && distinctNames ns

namespace Module

/-- The signatures of all functions, imports first, if all are known. -/
def functionTypes? (m : Module) : Option (List FuncType) :=
  (m.imports.map (·.type) ++ m.functions).mapM (m.types[·]?)

/-- Whether what an export gives access to exists. -/
def hasTarget (m : Module) : ExportTarget → Bool
  | .function index => index < m.imports.length + m.functions.length
  | .memory index => index < m.memories.length

/-- Whether the code of a function is valid. -/
def hasValidCode (m : Module) (functions : Array FuncType) (type : FuncType) (code : Code) :
    Bool :=
  let locals := type.params ++ code.locals
  locals.length ≤ maxLocals &&
    body ⟨functions, m.globals.length, m.memories.length, locals.toArray, type.results, []⟩
      code.body

/-- Whether a module is valid. -/
def isValid (m : Module) : Bool :=
  match m.functionTypes? with
  | none => false
  | some types =>
    let defined := types.drop m.imports.length
    m.types.all (·.isValid) &&
      m.memories.length ≤ 1 && m.memories.all (· ≤ maxPages) &&
      m.imports.all (fun i => isValidName i.module && isValidName i.name) &&
      m.entries.all (fun e => isValidName e.name && m.hasTarget e.target) &&
      distinctNames (m.entries.map (·.name)) &&
      (m.segments.isEmpty || !m.memories.isEmpty) &&
      defined.length = m.codes.length &&
      (defined.zip m.codes).all fun (type, code) => m.hasValidCode types.toArray type code

end Module

end WasmCompiler.Wasm
