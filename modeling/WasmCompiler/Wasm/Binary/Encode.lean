import WasmCompiler.Wasm.Binary.Leb128
import WasmCompiler.Wasm.Binary.Opcode
import WasmCompiler.Wasm.Module

/-!
# Binary form of a module

A module is a header and its sections in a fixed order. All sections but that of the data
segments are written also when they are empty.
-/

namespace WasmCompiler.Wasm.Binary

open Leb128 (unsigned signed)

/-- The first eight bytes of every module. -/
def header : List UInt8 :=
  [0x00, 0x61, 0x73, 0x6d, 0x01, 0x00, 0x00, 0x00]

/-- A sequence with its length in front. -/
def vector {α : Type} (encode : α → List UInt8) (items : List α) : List UInt8 :=
  unsigned items.length ++ items.flatMap encode

/-- Bytes with their number in front. -/
def sized (bytes : List UInt8) : List UInt8 :=
  unsigned bytes.length ++ bytes

/-- A name. -/
def name (text : String) : List UInt8 :=
  sized (Text.Utf8.encode text)

/-! ### Instructions -/

mutual

/-- The bytes of an instruction. -/
def instr : Instr → List UInt8
  | .unreachable => [0x00]
  | .block result body => 0x02 :: blockByte result :: instrs body ++ [endByte]
  | .loop result body => 0x03 :: blockByte result :: instrs body ++ [endByte]
  | .branch result body none => 0x04 :: blockByte result :: instrs body ++ [endByte]
  | .branch result body (some alternate) =>
    0x04 :: blockByte result :: instrs body ++ elseByte :: instrs alternate ++ [endByte]
  | .br depth => 0x0c :: unsigned depth
  | .brIf depth => 0x0d :: unsigned depth
  | .ret => [0x0f]
  | .call function => 0x10 :: unsigned function
  | .drop => [0x1a]
  | .localGet index => 0x20 :: unsigned index
  | .localSet index => 0x21 :: unsigned index
  | .localTee index => 0x22 :: unsigned index
  | .globalGet index => 0x23 :: unsigned index
  | .globalSet index => 0x24 :: unsigned index
  | .load .i32 offset => 0x28 :: alignment :: unsigned offset
  | .load .f32 offset => 0x2a :: alignment :: unsigned offset
  | .store .i32 offset => 0x36 :: alignment :: unsigned offset
  | .store .f32 offset => 0x38 :: alignment :: unsigned offset
  | .memorySize => [0x3f, 0x00]
  | .memoryGrow => [0x40, 0x00]
  | .i32Const value => 0x41 :: signed value.toInt32.toInt
  | .f32Const value => 0x43 :: littleEndian32 value.bits.toNat
  | .i32Eqz => [0x45]
  | .i32Op op => [intOpByte op]
  | .f32Neg => [0x8c]
  | .f32Op op => [floatOpByte op]
  | .f32ConvertI32S => [0xb2]

/-- The bytes of several instructions. -/
def instrs : List Instr → List UInt8
  | [] => []
  | i :: is => instr i ++ instrs is

end

/-! ### Entries of sections -/

/-- A signature. -/
def funcType (t : FuncType) : List UInt8 :=
  0x60 :: vector ([typeByte ·]) t.params ++ vector ([typeByte ·]) t.results

/-- An imported function. -/
def importEntry (i : ImportEntry) : List UInt8 :=
  name i.module ++ name i.name ++ 0x00 :: unsigned i.type

/-- A memory without an upper limit. -/
def memory (pages : Nat) : List UInt8 :=
  0x00 :: unsigned pages

/-- An expression that gives a constant. -/
def constant (value : UInt32) : List UInt8 :=
  0x41 :: signed value.toInt32.toInt ++ [endByte]

/-- A mutable integer. -/
def global (value : UInt32) : List UInt8 :=
  typeByte .i32 :: 0x01 :: constant value

def exportTarget : ExportTarget → List UInt8
  | .function index => 0x00 :: unsigned index
  | .memory index => 0x02 :: unsigned index

def exportEntry (e : ExportEntry) : List UInt8 :=
  name e.name ++ exportTarget e.target

/-- The runs of equal types in a list of locals, with their lengths. -/
def runs : List ValueType → List (Nat × ValueType)
  | [] => []
  | t :: ts =>
    match runs ts with
    | (n, u) :: rest => if t = u then (n + 1, u) :: rest else (1, t) :: (n, u) :: rest
    | [] => [(1, t)]

/-- A run of locals. -/
def localRun (run : Nat × ValueType) : List UInt8 :=
  unsigned run.1 ++ [typeByte run.2]

/-- The locals and the body of a function. -/
def code (c : Code) : List UInt8 :=
  sized (vector localRun (runs c.locals) ++ instrs c.body ++ [endByte])

/-- Bytes that are copied into memory before the program runs. -/
def segment (s : Segment) : List UInt8 :=
  0x00 :: constant (.ofNat s.offset) ++ sized s.bytes

/-! ### Modules -/

/-- A section. -/
def sectionOf {α : Type} (id : UInt8) (encode : α → List UInt8) (items : List α) : List UInt8 :=
  id :: sized (vector encode items)

/-- The section of the data segments, if there are any. -/
def dataSection (segments : List Segment) : List UInt8 :=
  if segments.isEmpty then [] else sectionOf 11 segment segments

/-- The binary form of a module. -/
def encode (m : Module) : List UInt8 :=
  header ++ sectionOf 1 funcType m.types ++ sectionOf 2 importEntry m.imports ++
    sectionOf 3 unsigned m.functions ++ sectionOf 5 memory m.memories ++
    sectionOf 6 global m.globals ++ sectionOf 7 exportEntry m.entries ++
    sectionOf 10 code m.codes ++ dataSection m.segments

end WasmCompiler.Wasm.Binary
