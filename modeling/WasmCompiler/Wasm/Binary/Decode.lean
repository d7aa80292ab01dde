import WasmCompiler.Wasm.Binary.Encode

/-!
# Reading the binary form

Readers for what `Binary.encode` writes: each takes bytes from the front and leaves the rest. As
the format has it, numbers have at most 32 bits and take at most five bytes, which need not be the
shortest form, and a section that is absent reads as an empty one. Anything else that `encode` does
not write is refused.
-/

namespace WasmCompiler.Wasm.Binary

/-- Takes something from the front of some bytes. -/
abbrev Reader := StateT (List UInt8) Option

namespace Reader

/-- One byte. -/
def byte : Reader UInt8 := fun bytes =>
  match bytes with
  | [] => none
  | b :: rest => some (b, rest)

/-- A byte that is known. -/
def literal (expected : UInt8) : Reader Unit := do
  let b ← byte
  guard (b = expected)

/-- As many bytes as are asked for. -/
def take (count : Nat) : Reader (List UInt8) := fun bytes =>
  if count ≤ bytes.length then some (bytes.take count, bytes.drop count) else none

/-- The most bytes that a number of 32 bits takes, seven bits to a byte. -/
def maxNumberSize : Nat := 5

/-- An unsigned number. -/
def unsigned : Reader Nat := fun bytes => do
  let (n, rest) ← Leb128.readUnsigned bytes
  guard (n < UInt32.size ∧ Leb128.endsWithin maxNumberSize bytes)
  some (n, rest)

/-- A signed number, as a word. -/
def word : Reader UInt32 := fun bytes => do
  let (z, rest) ← Leb128.readSigned bytes
  guard (Int32.minValue.toInt ≤ z ∧ z ≤ Int32.maxValue.toInt ∧
    Leb128.endsWithin maxNumberSize bytes)
  some ((Int32.ofInt z).toUInt32, rest)

/-- An item a number of times. -/
def times {α : Type} (item : Reader α) : Nat → Reader (List α)
  | 0 => pure []
  | n + 1 => do
    let x ← item
    let xs ← times item n
    return x :: xs

/-- A sequence with its length in front. -/
def vector {α : Type} (item : Reader α) : Reader (List α) := do
  times item (← unsigned)

/-- Bytes with their number in front. -/
def sized : Reader (List UInt8) := do
  take (← unsigned)

/-- Something that is all of the bytes with their number in front. -/
def sizedOf {α : Type} (content : Reader α) : Reader α := do
  let bytes ← sized
  match content bytes with
  | some (x, []) => return x
  | _ => failure

/-- A name. -/
def name : Reader String := do
  match Text.Utf8.decode? (← sized) with
  | some text => return text
  | none => failure

/-- Four bytes, the lowest first. -/
def littleEndian32 : Reader UInt32 := do
  let a ← byte
  let b ← byte
  let c ← byte
  let d ← byte
  return .ofNat (a.toNat + 0x100 * b.toNat + 0x10000 * c.toNat + 0x1000000 * d.toNat)

/-- Gives up where there is no value. -/
def found {α : Type} (value : Option α) : Reader α :=
  match value with
  | some x => pure x
  | none => failure

/-! ### Instructions -/

/-- Instructions with the byte that ends them. -/
abbrev Sequence := Reader (List Instr × UInt8)

/-- Instructions up to an `end`. -/
def closed (sequence : Sequence) : Reader (List Instr) := do
  let (body, stop) ← sequence
  guard (stop = endByte)
  return body

/-- The second body of a conditional, if the first was not the last. -/
def alternate (sequence : Sequence) (stop : UInt8) : Reader (Option (List Instr)) := do
  if stop = endByte then return none else some <$> closed sequence

/-- The offset of a memory access, after its alignment. -/
def offset : Reader Nat := do
  literal alignment
  unsigned

/-- The rest of the instruction that a byte begins; `sequence` reads the bodies in it. -/
def instrAfter (sequence : Sequence) (opcode : UInt8) : Reader Instr := do
  match opcode with
  | 0x02 =>
    let result ← found (blockOfByte? (← byte))
    return .block result (← closed sequence)
  | 0x03 =>
    let result ← found (blockOfByte? (← byte))
    return .loop result (← closed sequence)
  | 0x04 =>
    let result ← found (blockOfByte? (← byte))
    let (body, stop) ← sequence
    return .branch result body (← alternate sequence stop)
  | 0x0c => return .br (← unsigned)
  | 0x0d => return .brIf (← unsigned)
  | 0x10 => return .call (← unsigned)
  | 0x20 => return .localGet (← unsigned)
  | 0x21 => return .localSet (← unsigned)
  | 0x22 => return .localTee (← unsigned)
  | 0x23 => return .globalGet (← unsigned)
  | 0x24 => return .globalSet (← unsigned)
  | 0x28 => return .load .i32 (← offset)
  | 0x2a => return .load .f32 (← offset)
  | 0x36 => return .store .i32 (← offset)
  | 0x38 => return .store .f32 (← offset)
  | 0x3f =>
    literal 0x00
    return .memorySize
  | 0x40 =>
    literal 0x00
    return .memoryGrow
  | 0x41 => return .i32Const (← word)
  | 0x43 => return .f32Const ⟨← littleEndian32⟩
  | other => found (plainOfByte? other)

/-- Instructions up to an `end` or `else`, of at most `n` bytes. -/
def sequenceUpTo : Nat → Sequence
  | 0 => failure
  | n + 1 => do
    let b ← byte
    if b = endByte ∨ b = elseByte then return ([], b)
    else
      let i ← instrAfter (sequenceUpTo n) b
      let (rest, stop) ← sequenceUpTo n
      return (i :: rest, stop)

/-- Instructions up to an `end` or `else`. -/
def sequence : Sequence := fun bytes =>
  sequenceUpTo (bytes.length + 1) bytes

/-! ### Entries of sections -/

def valueType : Reader ValueType := do
  found (typeOfByte? (← byte))

def funcType : Reader FuncType := do
  literal 0x60
  return ⟨← vector valueType, ← vector valueType⟩

def importEntry : Reader ImportEntry := do
  let module ← name
  let item ← name
  literal 0x00
  return ⟨module, item, ← unsigned⟩

def memory : Reader Nat := do
  literal 0x00
  unsigned

def constant : Reader UInt32 := do
  literal 0x41
  let value ← word
  literal endByte
  return value

def global : Reader UInt32 := do
  literal (typeByte .i32)
  literal 0x01
  constant

def exportTarget : Reader ExportTarget := do
  match ← byte with
  | 0x00 => return .function (← unsigned)
  | 0x02 => return .memory (← unsigned)
  | _ => failure

def exportEntry : Reader ExportEntry := do
  return ⟨← name, ← exportTarget⟩

def localRun : Reader (List ValueType) := do
  let count ← unsigned
  let type ← valueType
  return List.replicate count type

def code : Reader Code :=
  sizedOf do
    let locals ← vector localRun
    return ⟨locals.flatten, ← closed sequence⟩

def segment : Reader Segment := do
  literal 0x00
  let offset ← constant
  return ⟨offset.toNat, ← sized⟩

/-! ### Modules -/

/-- A section, which reads as empty if it is absent. -/
def sectionOf {α : Type} (id : UInt8) (item : Reader α) : Reader (List α) := do
  if (← get).head? = some id then
    literal id
    sizedOf (vector item)
  else
    return []

/-- A module. -/
def module : Reader Module := do
  let start ← take header.length
  guard (start = header)
  let types ← sectionOf 1 funcType
  let imports ← sectionOf 2 importEntry
  let functions ← sectionOf 3 unsigned
  let memories ← sectionOf 5 memory
  let globals ← sectionOf 6 global
  let entries ← sectionOf 7 exportEntry
  let codes ← sectionOf 10 code
  let segments ← sectionOf 11 segment
  return { types, imports, functions, memories, globals, entries, codes, segments }

end Reader

/-- The module that bytes are the binary form of. -/
def decode? (bytes : List UInt8) : Option Module :=
  match Reader.module bytes with
  | some (m, []) => some m
  | _ => none

end WasmCompiler.Wasm.Binary
