import WasmCompiler.Wasm.Instr

/-!
# Opcodes

The bytes of the instructions without operands, of value types and of block types.
-/

namespace WasmCompiler.Wasm.Binary

/-- The byte of a value type. -/
def typeByte : ValueType → UInt8
  | .i32 => 0x7f
  | .f32 => 0x7d

def typeOfByte? : UInt8 → Option ValueType
  | 0x7f => some .i32
  | 0x7d => some .f32
  | _ => none

/-- The byte of a block type; a block without a result has one of its own. -/
def blockByte : Option ValueType → UInt8
  | none => 0x40
  | some type => typeByte type

def blockOfByte? : UInt8 → Option (Option ValueType)
  | 0x40 => some none
  | b => some <$> typeOfByte? b

/-- The byte of an integer operation. -/
def intOpByte : IntOp → UInt8
  | .eq => 0x46
  | .ne => 0x47
  | .ltS => 0x48
  | .gtS => 0x4a
  | .leS => 0x4c
  | .leU => 0x4d
  | .geS => 0x4e
  | .add => 0x6a
  | .sub => 0x6b
  | .mul => 0x6c
  | .divS => 0x6d
  | .shl => 0x74

/-- The byte of a float operation. -/
def floatOpByte : FloatOp → UInt8
  | .eq => 0x5b
  | .ne => 0x5c
  | .lt => 0x5d
  | .gt => 0x5e
  | .le => 0x5f
  | .ge => 0x60
  | .add => 0x92
  | .sub => 0x93
  | .mul => 0x94
  | .div => 0x95

/-- The instruction without operands that a byte stands for. -/
def plainOfByte? : UInt8 → Option Instr
  | 0x00 => some .unreachable
  | 0x0f => some .ret
  | 0x1a => some .drop
  | 0x45 => some .i32Eqz
  | 0x46 => some (.i32Op .eq)
  | 0x47 => some (.i32Op .ne)
  | 0x48 => some (.i32Op .ltS)
  | 0x4a => some (.i32Op .gtS)
  | 0x4c => some (.i32Op .leS)
  | 0x4d => some (.i32Op .leU)
  | 0x4e => some (.i32Op .geS)
  | 0x6a => some (.i32Op .add)
  | 0x6b => some (.i32Op .sub)
  | 0x6c => some (.i32Op .mul)
  | 0x6d => some (.i32Op .divS)
  | 0x74 => some (.i32Op .shl)
  | 0x5b => some (.f32Op .eq)
  | 0x5c => some (.f32Op .ne)
  | 0x5d => some (.f32Op .lt)
  | 0x5e => some (.f32Op .gt)
  | 0x5f => some (.f32Op .le)
  | 0x60 => some (.f32Op .ge)
  | 0x92 => some (.f32Op .add)
  | 0x93 => some (.f32Op .sub)
  | 0x94 => some (.f32Op .mul)
  | 0x95 => some (.f32Op .div)
  | 0x8c => some .f32Neg
  | 0xb2 => some .f32ConvertI32S
  | _ => none

/-- The byte that closes a block, a body or a constant expression. -/
def endByte : UInt8 := 0x0b

/-- The byte between the two bodies of a conditional. -/
def elseByte : UInt8 := 0x05

/-- Memory accesses are aligned to four bytes, given as a power of two. -/
def alignment : UInt8 := 2

/-! ### Bytes are read back as what they stand for -/

theorem typeOfByte?_typeByte (t : ValueType) : typeOfByte? (typeByte t) = some t := by
  cases t <;> rfl

theorem blockOfByte?_blockByte (result : Option ValueType) :
    blockOfByte? (blockByte result) = some result := by
  rcases result with _ | t
  · rfl
  · cases t <;> rfl

theorem plainOfByte?_intOpByte (op : IntOp) : plainOfByte? (intOpByte op) = some (.i32Op op) := by
  cases op <;> rfl

theorem plainOfByte?_floatOpByte (op : FloatOp) :
    plainOfByte? (floatOpByte op) = some (.f32Op op) := by
  cases op <;> rfl

end WasmCompiler.Wasm.Binary
