import Std.Data.TreeSet
import WasmCompiler.Wasm.Module

/-!
# Room on the call stack

A call takes room: for its linkage, for the arguments that find no register, and for the values
that a call inside the function must not destroy, because no register survives a call. Those are
the locals that are read later, the values that wait on the stack, and the instance if the code
goes on to call a function or to use the memory or a global. A constant needs no room, it is made
again.

`before` says what code still needs, from its end to its beginning. `keptAll` follows the stack
from the beginning on as well and finds the call that has the most to keep.

The numbers stand for the native frames of an engine and are not part of the format. What is proved
about runs holds whatever they are: a run with less room is the same, or it runs out of room.
-/

namespace WasmCompiler.Wasm.Room

/-! ### What is needed later -/

/-- What the code from some point on needs. -/
structure Needs where
  /-- The locals that it reads before it writes them. -/
  locals : Std.TreeSet Nat
  /-- Whether it needs the instance. -/
  context : Bool

namespace Needs

/-- Code that needs nothing. -/
def none : Needs := ⟨.empty, false⟩

/-- What either of two pieces of code needs. -/
def union (a b : Needs) : Needs :=
  ⟨a.locals.foldl .insert b.locals, a.context || b.context⟩

/-- The needs before a local is read. -/
def read (n : Needs) (index : Nat) : Needs :=
  { n with locals := n.locals.insert index }

/-- The needs before a local is written. -/
def write (n : Needs) (index : Nat) : Needs :=
  { n with locals := n.locals.erase index }

/-- The needs before the instance is used. -/
def use (n : Needs) : Needs :=
  { n with context := true }

end Needs

/-- What a jump out of some blocks needs; one that leaves the function needs nothing. -/
def atLabel (labels : List Needs) (depth : Nat) : Needs :=
  labels.getD depth .none

mutual

/-- What is needed before an instruction, given what is needed after it and at the enclosing
labels. A jump back to a loop adds nothing to what is needed at its beginning. -/
def before (labels : List Needs) (after : Needs) : Instr → Needs
  | .block _ body => beforeAll (after :: labels) after body
  | .loop _ body => beforeAll (.none :: labels) after body
  | .branch _ body none => (beforeAll (after :: labels) after body).union after
  | .branch _ body (some alternate) =>
    (beforeAll (after :: labels) after body).union (beforeAll (after :: labels) after alternate)
  | .br depth => atLabel labels depth
  | .brIf depth => (atLabel labels depth).union after
  | .ret | .unreachable => .none
  | .localGet index => after.read index
  | .localSet index | .localTee index => after.write index
  | .call _ | .globalGet _ | .globalSet _ | .load .. | .store .. | .memorySize | .memoryGrow =>
    after.use
  | _ => after

/-- What is needed before several instructions. -/
def beforeAll (labels : List Needs) (after : Needs) : List Instr → Needs
  | [] => after
  | i :: is => before labels (beforeAll labels after is) i

end

/-! ### What waits on the stack -/

/-- A value that waits on the stack. -/
inductive Waiting where
  | constant
  /-- What a local holds; code writes no local while its old value waits. -/
  | held (index : Nat)
  | computed (type : ValueType)
deriving DecidableEq, Repr

/-- The result of an operation; that of constants is a constant. -/
def Waiting.result (type : ValueType) (operands : List Waiting) : Waiting :=
  if operands.all (· = .constant) then .constant else .computed type

/-- What the code of a function is read against. -/
structure Context where
  functions : Array FuncType
  locals : Array ValueType

namespace Context

/-- The type of a local. -/
def localType (c : Context) (index : Nat) : ValueType :=
  c.locals.getD index .i32

/-- The type of a function. -/
def functionType (c : Context) (index : Nat) : FuncType :=
  c.functions.getD index ⟨[], []⟩

end Context

/-- Applies an operation to the values on top of the stack. -/
def operate (type : ValueType) (count : Nat) (stack : List Waiting) : List Waiting :=
  .result type (stack.take count) :: stack.drop count

/-- The stack after an instruction. -/
def stackAfter (c : Context) (stack : List Waiting) : Instr → List Waiting
  | .unreachable | .br _ | .ret => stack
  | .block result _ | .loop result _ => result.toList.map .computed ++ stack
  | .branch result _ _ => result.toList.map .computed ++ stack.drop 1
  | .call function =>
    let type := c.functionType function
    type.results.map .computed ++ stack.drop type.params.length
  | .brIf _ | .drop | .localSet _ | .globalSet _ => stack.drop 1
  | .store .. => stack.drop 2
  | .localGet index => .held index :: stack
  | .localTee index => .held index :: stack.drop 1
  | .globalGet _ | .memorySize => .computed .i32 :: stack
  | .memoryGrow => .computed .i32 :: stack.drop 1
  | .load type _ => .computed type :: stack.drop 1
  | .i32Const _ | .f32Const _ => .constant :: stack
  | .i32Eqz => operate .i32 1 stack
  | .i32Op _ => operate .i32 2 stack
  | .f32Neg | .f32ConvertI32S => operate .f32 1 stack
  | .f32Op op => operate op.result 2 stack

/-! ### What a call must keep -/

/-- Words that a value of a type takes when it is kept; a float takes the room of a whole float
register. -/
def words : ValueType → Nat
  | .i32 => 1
  | .f32 => 2

/-- Words of the values that wait and that no local holds. -/
def computedWords (waiting : List Waiting) : Nat :=
  waiting.foldl
    (fun n w =>
      match w with
      | .computed type => n + words type
      | _ => n)
    0

/-- The locals whose values wait, beside some others. -/
def heldLocals (locals : Std.TreeSet Nat) (waiting : List Waiting) : Std.TreeSet Nat :=
  waiting.foldl
    (fun locals w =>
      match w with
      | .held index => locals.insert index
      | _ => locals)
    locals

/-- Words that are kept during a call, given what is needed after it and what waits. A value that
a local holds is kept once. -/
def kept (c : Context) (after : Needs) (waiting : List Waiting) : Nat :=
  let ofContext := if after.context then 1 else 0
  (heldLocals after.locals waiting).foldl (fun n index => n + words (c.localType index))
    (computedWords waiting + ofContext)

/-- Whether what follows an instruction is never reached. -/
def leaves : Instr → Bool
  | .br _ | .ret | .unreachable => true
  | _ => false

mutual

/-- What is needed before an instruction, and the most words that a call in it keeps. -/
def keptIn (c : Context) (labels : List Needs) (after : Needs) (stack : List Waiting) :
    Instr → Needs × Nat
  | .block _ body => keptAll c (after :: labels) after stack body
  | .loop _ body => keptAll c (beforeAll (.none :: labels) after body :: labels) after stack body
  | .branch _ body none =>
    let (needs, most) := keptAll c (after :: labels) after (stack.drop 1) body
    (needs.union after, most)
  | .branch _ body (some alternate) =>
    let (needs, most) := keptAll c (after :: labels) after (stack.drop 1) body
    let (needs', most') := keptAll c (after :: labels) after (stack.drop 1) alternate
    (needs.union needs', max most most')
  | .call function =>
    (after.use, kept c after (stack.drop (c.functionType function).params.length))
  | i => (before labels after i, 0)

/-- What is needed before several instructions, and the most words that a call in them keeps. -/
def keptAll (c : Context) (labels : List Needs) (after : Needs) (stack : List Waiting) :
    List Instr → Needs × Nat
  | [] => (after, 0)
  | i :: is =>
    if leaves i then (before labels .none i, 0)
    else
      let (needs, most) := keptAll c labels after (stackAfter c stack i) is
      let (needs', most') := keptIn c labels needs stack i
      (needs', max most most')

end

/-! ### Calls -/

/-- The integer arguments that travel in registers; two more registers are taken by the
instances. -/
def integerRegisters : Nat := 4

/-- The float arguments that travel in registers. -/
def floatRegisters : Nat := 8

/-- Words for the arguments that find no register. -/
def argumentWords (params : List ValueType) : Nat :=
  (params.count .i32 - integerRegisters) + (params.count .f32 - floatRegisters)

/-- Words are taken in pairs. -/
def pairs (words : Nat) : Nat :=
  (words + 1) / 2

/-- The room that a call of a function takes, in pairs of words. -/
def ofFunction (functions : Array FuncType) (type : FuncType) (code : Code) : Nat :=
  let c : Context := ⟨functions, (type.params ++ code.locals).toArray⟩
  1 + pairs (argumentWords type.params) + pairs (keptAll c [] .none [] code.body).2

end WasmCompiler.Wasm.Room
