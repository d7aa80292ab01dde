import WasmCompiler.Lowering.Error
import WasmCompiler.Typing.Expr
import WasmCompiler.Wasm.Descriptor

/-!
# Lowering expressions

The code of an expression leaves the machine values of its type on the stack. It may use scratch
locals, which are numbered after all slots of the function; the ones handed out so far are the
state of the lowering.

Arrays are blocks of cells, the number of elements first. The block is reserved before the
elements are evaluated, so the blocks of nested arrays lie behind it.
-/

namespace WasmCompiler

open Number (Single)
open Wasm (Instr ValueType)

/-- Number of the host function that prints an integer. -/
def printIndex : Nat := 0

/-- Number of the host function that prints a string. -/
def printStringIndex : Nat := 1

/-- What the code of an expression depends on. -/
structure LoweringContext where
  symbols : SymbolTable
  /-- The numbers of the functions and constructors. -/
  indices : List (String × Nat)
  /-- The number of the allocator. -/
  allocator : Nat
  /-- The number of the first scratch local. -/
  scratchBase : Nat

/-- Code, and the type of what it leaves on the stack. -/
structure Lowered where
  code : List Instr
  type : DataType
deriving Inhabited

/-- Lowering that hands out scratch locals. -/
abbrev ScratchM := StateT (List ValueType) (Except LoweringError)

namespace Lowering

/-- Hands out a scratch local. -/
def allocScratch (c : LoweringContext) (type : ValueType) : ScratchM Nat := fun scratch =>
  .ok (c.scratchBase + scratch.length, scratch ++ [type])

/-- Gives up because an invariant failed at a place of the source. -/
def violated {α : Type} (what : Invariant) (location : Location) : ScratchM α :=
  throw (.invariant what (.source location))

/-! ### Locals and memory -/

/-- Pushes `width` slots from `slot` on. -/
def getSlots (slot width : Nat) : List Instr :=
  (List.range width).map fun k => .localGet (slot + k)

/-- Pops into `width` slots from `slot` on, the last one first. -/
def setSlots (slot width : Nat) : List Instr :=
  (List.range width).reverse.map fun k => .localSet (slot + k)

/-- The machine type in which a value of a type is stored in a cell. -/
def cellType (type : DataType) : ValueType :=
  if type.isFloat then .f32 else .i32

/-- Reads the cell at an offset from the address on the stack. -/
def loadCell (type : DataType) (cell : Nat) : Instr :=
  .load (cellType type) (cell * cellSize)

/-- Writes the cell at an offset from the address below the value on the stack. -/
def storeCell (type : DataType) (cell : Nat) : Instr :=
  .store (cellType type) (cell * cellSize)

/-! ### Operators -/

/-- The instruction of an operator on integers or floats. The logical operators have none. -/
def operatorInstr? (op : BinaryOp) (float : Bool) : Option Instr :=
  match op, float with
  | .add, false => some (.i32Op .add)
  | .sub, false => some (.i32Op .sub)
  | .mul, false => some (.i32Op .mul)
  | .div, false => some (.i32Op .divS)
  | .eq, false => some (.i32Op .eq)
  | .ne, false => some (.i32Op .ne)
  | .lt, false => some (.i32Op .ltS)
  | .gt, false => some (.i32Op .gtS)
  | .le, false => some (.i32Op .leS)
  | .ge, false => some (.i32Op .geS)
  | .add, true => some (.f32Op .add)
  | .sub, true => some (.f32Op .sub)
  | .mul, true => some (.f32Op .mul)
  | .div, true => some (.f32Op .div)
  | .eq, true => some (.f32Op .eq)
  | .ne, true => some (.f32Op .ne)
  | .lt, true => some (.f32Op .lt)
  | .gt, true => some (.f32Op .gt)
  | .le, true => some (.f32Op .le)
  | .ge, true => some (.f32Op .ge)
  | .and, _ | .or, _ => none

/-- Converts an integer operand beside a float. -/
def converted (float : Bool) (l : Lowered) : List Instr :=
  if float && !l.type.isFloat then l.code ++ [.f32ConvertI32S] else l.code

/-- Code for both operands and the operator. -/
def arithmeticCode (op : BinaryOp) (l r : Lowered) : List Instr :=
  let float := l.type.isFloat || r.type.isFloat
  converted float l ++ converted float r ++ (operatorInstr? op float).toList

/-- Makes an integer zero or one. -/
def normalized (code : List Instr) : List Instr :=
  code ++ [.i32Const 0, .i32Op .ne]

/-- The second operand of `&&` is evaluated only if the first is not zero. -/
def andCode (l r : List Instr) : List Instr :=
  l ++ [.branch (some .i32) (normalized r) (some [.i32Const 0])]

/-- The second operand of `||` is evaluated only if the first is zero. -/
def orCode (l r : List Instr) : List Instr :=
  l ++ [.branch (some .i32) [.i32Const 1] (some (normalized r))]

/-- Changes the sign of the value on the stack. -/
def negateCode (type : DataType) : List Instr :=
  if type.isFloat then [.f32Neg] else [.i32Const 0xffffffff, .i32Op .mul]

/-! ### Tuples and fields -/

/-- The position of a tuple element. -/
def elementPosition (elements : List DataType) (index : Expr) : ScratchM Nat :=
  match index.elementIndex? elements.length with
  | some i => pure i
  | none => violated .tupleIndex index.location

/-- The first machine value of an element, counted from the first of the tuple. -/
def elementStart (elements : List DataType) (i : Nat) : Nat :=
  (DataType.machineTypesAll (elements.take i)).length

/-- The type of an element. -/
def elementType (elements : List DataType) (i : Nat) : DataType :=
  elements.getD i .none

/-- Hands out a scratch local for each of some values. -/
def allocScratches (c : LoweringContext) : List ValueType → ScratchM (List Nat)
  | [] => pure []
  | type :: types => do
    let temp ← allocScratch c type
    let others ← allocScratches c types
    return temp :: others

/-- With all values of a tuple on the stack, keeps those of one element: all are put into scratch
locals and the ones of the element are pushed again. -/
def spillTuple (c : LoweringContext) (elements : List DataType) (i : Nat) :
    ScratchM (List Instr) := do
  let temps ← allocScratches c (DataType.machineTypesAll elements)
  let start := elementStart elements i
  let width := (elementType elements i).width
  return temps.reverse.map .localSet ++ ((temps.drop start).take width).map .localGet

/-- Position and type of a field. -/
def fieldOf (base : DataType) (name : String) (location : Location) : ScratchM (Nat × DataType) :=
  match base.field? name with
  | some field => pure field
  | none => violated (.missingField name base) location

/-- The tuple variable that an expression names, if it names one. A name that stands for nothing
is an error. -/
def tupleVariable? (c : LoweringContext) : Expr → ScratchM (Option (Variable × List DataType))
  | .identifier location name =>
    match c.symbols.lookupVariable? name with
    | none => throw (.semantic (.undefined .variable name location))
    | some var =>
      match var.type with
      | .tuple elements => return some (var, elements)
      | _ => return none
  | _ => return none

/-- The number of the function that a call names. -/
def calleeIndex (c : LoweringContext) (location : Location) (callee : String) : ScratchM Nat :=
  if callee = printName then pure printIndex
  else if callee = printStringName then pure printStringIndex
  else
    match c.indices.lookup callee with
    | some index => pure index
    | none => throw (.semantic (.undefined .function callee location))

/-- The type of a call's result. -/
def callResult (c : LoweringContext) (location : Location) (callee : String) :
    ScratchM DataType :=
  match c.symbols.callable? callee with
  | some signature => pure signature.result
  | none => throw (.semantic (.undefined .function callee location))

/-- An integer of the source as a machine word. -/
def integerWord (location : Location) (value : Int) : ScratchM UInt32 :=
  if -0x80000000 ≤ value ∧ value < 0x80000000 then pure (Int32.ofInt value).toUInt32
  else violated (.integerRange value) location

/-! ### Arrays -/

/-- Reserves a block for an array of `count` elements, keeps its address in a local and writes
the number of elements into it. -/
def arrayHeader (c : LoweringContext) (base count : Nat) : List Instr :=
  [.i32Const (.ofNat (cellSize * (count + 1))), .call c.allocator, .localTee base,
    .i32Const (.ofNat count), .store .i32 0]

/-- Pushes the element at the index on the stack of the array below it. -/
def elementCode (element : DataType) : List Instr :=
  [.i32Const (.ofNat cellSize), .i32Op .mul, .i32Op .add, loadCell element 1]

/-! ### Expressions -/

mutual

/-- Lowers an expression. -/
def lowerExpr (c : LoweringContext) : Expr → ScratchM Lowered
  | .integer location value => do
    return ⟨[.i32Const (← integerWord location value)], .i32⟩
  | .float _ value => return ⟨[.f32Const (.ofDouble value)], .f64⟩
  | .string location text =>
    match c.symbols.stringOffset? text with
    | some offset => return ⟨[.i32Const (.ofNat offset)], .string⟩
    | none => violated (.unknownString text) location
  | .identifier location name =>
    match c.symbols.lookupVariable? name with
    | some var => return ⟨getSlots var.slot var.type.width, var.type⟩
    | none => throw (.semantic (.undefined .variable name location))
  | .unary location .not _ => violated .unsupportedNot location
  | .unary _ .negate operand => do
    let l ← lowerExpr c operand
    return ⟨l.code ++ negateCode l.type, l.type⟩
  | .binary _ .and left right => do
    let l ← lowerExpr c left
    let r ← lowerExpr c right
    return ⟨andCode l.code r.code, .i32⟩
  | .binary _ .or left right => do
    let l ← lowerExpr c left
    let r ← lowerExpr c right
    return ⟨orCode l.code r.code, .i32⟩
  | .binary _ op left right => do
    let l ← lowerExpr c left
    let r ← lowerExpr c right
    match op.result? l.type r.type with
    | some type => return ⟨arithmeticCode op l r, type⟩
    | none => violated (.uncheckedOperands l.type r.type) left.location
  | .call location callee args => do
    let code ← lowerArgs c args
    let index ← calleeIndex c location callee
    let type ← callResult c location callee
    return ⟨code ++ [.call index], type⟩
  | .member _ base name => do
    let b ← lowerExpr c base
    let (i, type) ← fieldOf b.type name base.location
    return ⟨b.code ++ [loadCell type i], type⟩
  | .index location base index => do
    match ← tupleVariable? c base with
    | some (var, elements) =>
      -- the element's slots are read directly
      let i ← elementPosition elements index
      let type := elementType elements i
      return ⟨getSlots (var.slot + elementStart elements i) type.width, type⟩
    | none =>
      let b ← lowerExpr c base
      match b.type with
      | .array element =>
        let i ← lowerExpr c index
        return ⟨b.code ++ i.code ++ elementCode element, element⟩
      | .tuple elements =>
        -- the whole tuple is on the stack, and the other elements have to go
        let i ← elementPosition elements index
        let spill ← spillTuple c elements i
        return ⟨b.code ++ spill, elementType elements i⟩
      | other => violated (.notIndexable other) location
  | .array _ items => do
    -- the local is handed out before those of the items, whose code runs while it is in use
    let base ← allocScratch c .i32
    let (code, element) ← lowerItems c base 1 .i32 items
    return ⟨arrayHeader c base items.length ++ code ++ [.localGet base], .array element⟩
  | .tuple _ items => do
    let (code, types) ← lowerElements c items
    return ⟨code, .tuple types⟩

/-- Lowers the arguments of a call. -/
def lowerArgs (c : LoweringContext) : List Expr → ScratchM (List Instr)
  | [] => pure []
  | arg :: args => do
    let a ← lowerExpr c arg
    let code ← lowerArgs c args
    return a.code ++ code

/-- Lowers the elements of a tuple. -/
def lowerElements (c : LoweringContext) : List Expr → ScratchM (List Instr × List DataType)
  | [] => pure ([], [])
  | item :: items => do
    let l ← lowerExpr c item
    let (code, types) ← lowerElements c items
    return (l.code ++ code, l.type :: types)

/-- Lowers the items of an array into the cells from `cell` on of the block in the local `base`.
The element type of the array is that of its last item. -/
def lowerItems (c : LoweringContext) (base cell : Nat) (element : DataType) :
    List Expr → ScratchM (List Instr × DataType)
  | [] => pure ([], element)
  | item :: items => do
    let l ← lowerExpr c item
    let (code, last) ← lowerItems c base (cell + 1) l.type items
    return (.localGet base :: l.code ++ storeCell l.type cell :: code, last)

end

end Lowering

end WasmCompiler
