import WasmCompiler.Number.Single
import WasmCompiler.Text.Quoted
import WasmCompiler.Wasm.ValueType

/-!
# Instructions

The instructions that compiled programs use. Blocks hold their bodies, so every list of
instructions is well bracketed; `Instr.listing` gives the flat sequence in which each block is
closed by an `end` of its own.
-/

namespace WasmCompiler.Wasm

open Number (Single)

/-- Operations on two integers. -/
inductive IntOp where
  | add
  | sub
  | mul
  | divS
  | eq
  | ne
  | ltS
  | gtS
  | leS
  | geS
  | leU
  | shl
deriving DecidableEq, Repr, Inhabited

/-- Operations on two floats. -/
inductive FloatOp where
  | add
  | sub
  | mul
  | div
  | eq
  | ne
  | lt
  | gt
  | le
  | ge
deriving DecidableEq, Repr, Inhabited

/-- The type of a float operation's result; comparisons give an integer. -/
def FloatOp.result : FloatOp → ValueType
  | .add | .sub | .mul | .div => .f32
  | _ => .i32

inductive Instr where
  | unreachable
  | block (result : Option ValueType) (body : List Instr)
  | loop (result : Option ValueType) (body : List Instr)
  /-- Runs the first body if the condition on the stack is not zero and the second one, if there
  is one, otherwise. -/
  | branch (result : Option ValueType) (body : List Instr) (alternate : Option (List Instr))
  | br (depth : Nat)
  | brIf (depth : Nat)
  | ret
  | call (function : Nat)
  | drop
  | localGet (index : Nat)
  | localSet (index : Nat)
  | localTee (index : Nat)
  | globalGet (index : Nat)
  | globalSet (index : Nat)
  | load (type : ValueType) (offset : Nat)
  | store (type : ValueType) (offset : Nat)
  | memorySize
  | memoryGrow
  | i32Const (value : UInt32)
  | f32Const (value : Single)
  | i32Eqz
  | i32Op (op : IntOp)
  | f32Neg
  | f32Op (op : FloatOp)
  | f32ConvertI32S
deriving Inhabited, Repr

/-- The instruction that pushes the zero of a type. -/
def Instr.zero : ValueType → Instr
  | .i32 => .i32Const 0
  | .f32 => .f32Const .zero

/-! ### Listings -/

/-- The name of an integer operation. -/
def IntOp.name : IntOp → String
  | .add => "i32.add"
  | .sub => "i32.sub"
  | .mul => "i32.mul"
  | .divS => "i32.div_s"
  | .eq => "i32.eq"
  | .ne => "i32.ne"
  | .ltS => "i32.lt_s"
  | .gtS => "i32.gt_s"
  | .leS => "i32.le_s"
  | .geS => "i32.ge_s"
  | .leU => "i32.le_u"
  | .shl => "i32.shl"

/-- The name of a float operation. -/
def FloatOp.name : FloatOp → String
  | .add => "f32.add"
  | .sub => "f32.sub"
  | .mul => "f32.mul"
  | .div => "f32.div"
  | .eq => "f32.eq"
  | .ne => "f32.ne"
  | .lt => "f32.lt"
  | .gt => "f32.gt"
  | .le => "f32.le"
  | .ge => "f32.ge"

/-- Eight hexadecimal digits after `0x`. -/
def hexWord (w : UInt32) : String :=
  let digits := Text.hexDigits w.toNat
  "0x" ++ String.ofList (List.replicate (8 - digits.length) '0') ++ digits

/-- The opening word of a block. -/
def opening (word : String) : Option ValueType → String
  | none => word
  | some type => word ++ " (result " ++ type.name ++ ")"

namespace Instr

mutual

/-- The lines of an instruction in a listing. -/
def lines : Instr → List String
  | .unreachable => ["unreachable"]
  | .block result body => opening "block" result :: linesAll body ++ ["end"]
  | .loop result body => opening "loop" result :: linesAll body ++ ["end"]
  | .branch result body none => opening "if" result :: linesAll body ++ ["end"]
  | .branch result body (some alternate) =>
    opening "if" result :: linesAll body ++ "else" :: linesAll alternate ++ ["end"]
  | .br depth => ["br " ++ toString depth]
  | .brIf depth => ["br_if " ++ toString depth]
  | .ret => ["return"]
  | .call function => ["call " ++ toString function]
  | .drop => ["drop"]
  | .localGet index => ["local.get " ++ toString index]
  | .localSet index => ["local.set " ++ toString index]
  | .localTee index => ["local.tee " ++ toString index]
  | .globalGet index => ["global.get " ++ toString index]
  | .globalSet index => ["global.set " ++ toString index]
  | .load type offset => [type.name ++ ".load offset=" ++ toString offset ++ " align=2"]
  | .store type offset => [type.name ++ ".store offset=" ++ toString offset ++ " align=2"]
  | .memorySize => ["memory.size 0"]
  | .memoryGrow => ["memory.grow 0"]
  | .i32Const value => ["i32.const " ++ toString value.toInt32.toInt]
  | .f32Const value => ["f32.const " ++ hexWord value.bits]
  | .i32Eqz => ["i32.eqz"]
  | .i32Op op => [op.name]
  | .f32Neg => ["f32.neg"]
  | .f32Op op => [op.name]
  | .f32ConvertI32S => ["f32.convert_i32_s"]

/-- The lines of several instructions. -/
def linesAll : List Instr → List String
  | [] => []
  | i :: is => lines i ++ linesAll is

end

/-- The listing of a function body, closed by its `end`. -/
def listing (body : List Instr) : List String :=
  linesAll body ++ ["end"]

end Instr

end WasmCompiler.Wasm
