import WasmCompiler.Wasm.Descriptor

/-!
# Modules

A module as its binary form has it: functions refer to signatures by number, and only what is
exported has a name. `Descriptor.toModule` numbers the signatures in order of their first use,
without repetition.
-/

namespace WasmCompiler.Wasm

/-- An import that refers to its signature by number. -/
structure ImportEntry where
  module : String
  name : String
  type : Nat
deriving DecidableEq, Repr, Inhabited

/-- What an export gives access to. -/
inductive ExportTarget where
  | function (index : Nat)
  | memory (index : Nat)
deriving DecidableEq, Repr, Inhabited

structure ExportEntry where
  name : String
  target : ExportTarget
deriving DecidableEq, Repr, Inhabited

/-- The locals and the body of a function. -/
structure Code where
  locals : List ValueType
  body : List Instr
deriving Repr, Inhabited

/-- A module. Its globals are mutable integers, given by their first values; its memories are
given by their first sizes in pages. -/
structure Module where
  types : List FuncType
  imports : List ImportEntry
  /-- The signatures of the functions of the module. -/
  functions : List Nat
  memories : List Nat
  globals : List UInt32
  entries : List ExportEntry
  codes : List Code
  segments : List Segment
deriving Repr, Inhabited

/-- The distinct signatures of a list, in order of first use. -/
def distinctTypes (types : List FuncType) : List FuncType :=
  types.foldl (fun seen t => if seen.contains t then seen else seen ++ [t]) []

/-- The number of a signature. -/
def typeIndex (table : List FuncType) (t : FuncType) : Nat :=
  table.findIdx (· = t)

namespace Descriptor

/-- All signatures, imports first. -/
def allTypes (d : Descriptor) : List FuncType :=
  d.imports.map (·.type) ++ d.functions.map (·.type)

/-- The distinct signatures. -/
def typeTable (d : Descriptor) : List FuncType :=
  distinctTypes d.allTypes

/-- The exported functions among some that are numbered from `index` on. -/
def exportedFunctions (index : Nat) : List Function → List ExportEntry
  | [] => []
  | f :: fs =>
    let rest := exportedFunctions (index + 1) fs
    if f.exported then ⟨f.name, .function index⟩ :: rest else rest

/-- The exports: the memory, under the given name, and the exported functions. -/
def exportEntries (d : Descriptor) (memoryName : String) : List ExportEntry :=
  (if d.exportsMemory then [⟨memoryName, .memory 0⟩] else []) ++
    exportedFunctions d.imports.length d.functions

/-- The module that a descriptor describes. -/
def toModule (d : Descriptor) (memoryName : String) : Module :=
  { types := d.typeTable
    imports := d.imports.map fun i => ⟨i.module, i.name, typeIndex d.typeTable i.type⟩
    functions := d.functions.map fun f => typeIndex d.typeTable f.type
    memories := [d.memoryPages]
    globals := [.ofNat d.heapBase]
    entries := d.exportEntries memoryName
    codes := d.functions.map fun f => ⟨f.locals, f.body⟩
    segments := d.segments }

end Descriptor

end WasmCompiler.Wasm
