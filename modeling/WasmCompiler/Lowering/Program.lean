import WasmCompiler.Lowering.Stmt
import WasmCompiler.Typing.Program

/-!
# Lowering a program

Functions and constructors are numbered in the order of their declarations, after the functions
of the host; the allocator comes last. Every name has its number before the first body is
lowered.
-/

namespace WasmCompiler

open Wasm (Descriptor FuncType Function Import Instr ValueType)

/-- The functions that the host provides. -/
def hostImports : List Import :=
  [⟨"env", printName, ⟨[.i32], []⟩⟩, ⟨"env", printStringName, ⟨[.i32], []⟩⟩]

/-- The name of the allocator, which no name of a source text can be. -/
def allocatorName : String := "$alloc"

/-- The name of the function where a program starts, which is always exported. -/
def mainName : String := "main"

/-- The global that holds the first free address. -/
def heapGlobal : Nat := 0

namespace Lowering

/-- The allocator moves the first free address by the size it is given and returns what it was
before. Memory grows page by page until it holds the new address; if the host refuses, the
program stops. -/
def allocator : Function :=
  let size := 0
  let address := 1
  let top := 2
  { name := allocatorName
    type := ⟨[.i32], [.i32]⟩
    locals := [.i32, .i32]
    exported := false
    body :=
      [.globalGet heapGlobal, .localTee address, .localGet size, .i32Op .add, .localTee top,
        .globalSet heapGlobal,
        .block none
          [.loop none
            -- leaves the block when the new address is at most the size in bytes
            [.localGet top, .memorySize, .i32Const 16, .i32Op .shl, .i32Op .leU, .brIf 1,
              -- else asks for one page more
              .i32Const 1, .memoryGrow, .i32Const 0xffffffff, .i32Op .eq,
              .branch none [.unreachable] none,
              .br 0]],
        .localGet address] }

/-- Code that stores the parameters of a constructor into the cells of the block in `base`. -/
def storeFields (base : Nat) : (position : Nat) → List (String × DataType) → List Instr
  | _, [] => []
  | i, (_, type) :: rest =>
    [.localGet base, .localGet i, storeCell type i] ++ storeFields base (i + 1) rest

/-- The constructor of a struct takes its fields and returns the address of a new block. -/
def constructor (allocatorIndex : Nat) (name : String) (fields : List (String × DataType)) :
    Function :=
  let params := DataType.machineTypesAll (fields.map (·.2))
  let base := params.length
  { name
    type := ⟨params, [.i32]⟩
    locals := [.i32]
    exported := false
    body :=
      [.i32Const (.ofNat (DataType.structSize fields)), .call allocatorIndex, .localSet base] ++
        storeFields base 0 fields ++ [.localGet base] }

/-! ### Numbering -/

/-- The name that a top-level statement declares, if it declares one. -/
def declaredName? : Stmt → Option String
  | .struct _ decl => some decl.name
  | .function _ header _ => some header.name
  | _ => none

/-- The names that a program declares, in order. -/
def declaredNames (program : Program) : List String :=
  program.statements.filterMap declaredName?

/-- The numbers of the functions and constructors of a program. -/
def functionIndices (program : Program) : List (String × Nat) :=
  (declaredNames program).zipIdx hostImports.length

/-- The number of the allocator. -/
def allocatorIndex (program : Program) : Nat :=
  hostImports.length + (declaredNames program).length

/-! ### Functions -/

/-- Defines the parameters of a function. -/
def defineParams : List (Field × DataType) → LoweringM Unit
  | [] => pure ()
  | (param, type) :: rest => do
    let _ ← define param.name type .parameter param.location
    defineParams rest

/-- Leaves the function that is being lowered, and gives the variables that it declared. -/
def leaveFunction : LoweringM (List Variable) := fun s =>
  let (declared, symbols) := s.symbols.leaveFunction
  .ok declared { s with symbols }

/-- Turns an error of the frame computation into one of lowering. -/
def lift {α : Type} (result : Except LoweringError α) : LoweringM α :=
  match result with
  | .ok a => pure a
  | .error e => throw e

/-- Lowers the body of a function. A function that gives a value may not reach its end. -/
def lowerBody (program : Program) (header : FunctionHeader) (body : List Stmt)
    (signature : Signature) : LoweringM (List ValueType × List Instr) := do
  modify (withTable .enterFunction)
  defineParams (header.params.zip signature.params)
  let paramSlots := (← get).symbols.nextSlot
  let frameSize := paramSlots + (← lift (framesWidth body))
  let code ← lowerStmts ⟨functionIndices program, allocatorIndex program, frameSize⟩ body
  let declared ← leaveFunction
  let locals := declared.flatMap (·.type.machineTypes)
  unless paramSlots + locals.length = frameSize do
    throw (.invariant (.frameSize header.name (paramSlots + locals.length) frameSize) .locals)
  let scratch := (← get).scratch
  return (locals ++ scratch, code ++ if signature.result.isNone then [] else [.unreachable])

/-- Lowers a function. -/
def lowerFunction (program : Program) (header : FunctionHeader) (body : List Stmt) :
    EStateM LoweringError SymbolTable Function := fun t =>
  match t.function? header.name with
  | none => .error (.invariant (.unregisteredFunction header.name) .registration) t
  | some signature =>
    match lowerBody program header body signature ⟨t, []⟩ with
    | .error e s => .error e s.symbols
    | .ok (locals, code) s =>
      .ok
        { name := header.name
          type := ⟨DataType.machineTypesAll signature.params, signature.result.machineTypes⟩
          locals
          body := code
          exported := header.exported || header.name = mainName }
        s.symbols

/-- The constructor of a declared struct. -/
def lowerStruct (program : Program) (name : String) :
    EStateM LoweringError SymbolTable Function := fun t =>
  match t.struct? name with
  | none => .error (.invariant (.unregisteredStruct name) .registration) t
  | some fields => .ok (constructor (allocatorIndex program) name fields) t

/-- Lowers the declarations of a program, in order. -/
def lowerDeclarations (program : Program) :
    List Stmt → EStateM LoweringError SymbolTable (List Function)
  | [] => pure []
  | .struct _ decl :: rest => do
    let f ← lowerStruct program decl.name
    let fs ← lowerDeclarations program rest
    return f :: fs
  | .function _ header body :: rest => do
    let f ← lowerFunction program header body
    let fs ← lowerDeclarations program rest
    return f :: fs
  | _ :: rest => lowerDeclarations program rest

/-- Does what may only find semantic errors. -/
def semantic {α : Type} (action : SymbolM α) : EStateM LoweringError SymbolTable α := fun t =>
  match action t with
  | .ok a t' => .ok a t'
  | .error e t' => .error (.semantic e) t'

end Lowering

open Lowering in
/-- Declares, checks and lowers a program. -/
def generate (program : Program) : EStateM LoweringError SymbolTable Descriptor := do
  semantic (SymbolTable.declare program)
  let checked ← semantic (checkProgram program)
  let functions ← lowerDeclarations checked checked.statements
  unless hostImports.length + functions.length = allocatorIndex checked do
    throw (.invariant .allocatorPosition .registration)
  let t ← get
  return {
    imports := hostImports
    functions := functions ++ [allocator]
    segments := t.strings.segments
    heapBase := t.heapBase
    memoryPages := Wasm.pagesThrough t.heapBase
    exportsMemory := t.exportsMemory }

end WasmCompiler
