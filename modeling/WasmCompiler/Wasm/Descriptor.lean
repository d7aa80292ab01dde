import WasmCompiler.Symbols.StringPool
import WasmCompiler.Wasm.Instr

/-!
# Module descriptors

A compiled program before it is put into binary form: its imports, its functions by name, the
string records for its memory, and where the heap begins.
-/

namespace WasmCompiler.Wasm

/-- Bytes of one page of linear memory. -/
def pageSize : Nat := 65536

structure Import where
  module : String
  name : String
  type : FuncType
deriving DecidableEq, Repr, Inhabited

structure Function where
  name : String
  type : FuncType
  /-- The locals beyond the parameters, one for each slot. -/
  locals : List ValueType
  body : List Instr
  exported : Bool
deriving Repr, Inhabited

/-- The number of instructions of a function in a flat listing. -/
def Function.instructionCount (f : Function) : Nat :=
  (Instr.listing f.body).length

structure Descriptor where
  imports : List Import
  /-- The functions; they are numbered after the imports. -/
  functions : List Function
  /-- What is written into memory before the program runs. -/
  segments : List Segment
  heapBase : Nat
  /-- The size of the memory at the start. -/
  memoryPages : Nat
  exportsMemory : Bool
deriving Repr, Inhabited

/-- The pages that hold everything below an address and the address itself. -/
def pagesThrough (address : Nat) : Nat :=
  address / pageSize + 1

namespace Descriptor

/-- The names of the exported functions. -/
def exportNames (d : Descriptor) : List String :=
  (d.functions.filter (·.exported)).map (·.name)

/-- The number of the first function of a name. -/
def functionIndex? (d : Descriptor) (name : String) : Option Nat :=
  (d.functions.findIdx? (·.name = name)).map (d.imports.length + ·)

end Descriptor

end WasmCompiler.Wasm
