import WasmCompiler.Lowering.Expr
import WasmCompiler.Symbols.Declare

/-!
# Lowering statements

The code of a statement leaves the stack as it found it. Lowering opens and closes the scopes of
the symbol table and defines the variables of the function as it goes; after an error the table
stays as it was then, with the scopes of blocks closed.
-/

namespace WasmCompiler

open Wasm (Instr ValueType)

/-- What changes while a function is lowered. -/
structure LoweringState where
  symbols : SymbolTable
  /-- The types of the scratch locals handed out. -/
  scratch : List ValueType

/-- Lowering of statements. -/
abbrev LoweringM := EStateM LoweringError LoweringState

/-- What does not change while a function is lowered. -/
structure FunctionContext where
  indices : List (String × Nat)
  allocator : Nat
  scratchBase : Nat

/-- What an expression is lowered in. -/
def FunctionContext.withSymbols (f : FunctionContext) (symbols : SymbolTable) :
    LoweringContext :=
  ⟨symbols, f.indices, f.allocator, f.scratchBase⟩

namespace Lowering

/-- Gives up because an invariant failed at a place of the source. -/
def abort {α : Type} (what : Invariant) (location : Location) : LoweringM α :=
  throw (.invariant what (.source location))

/-- Lowers an expression, or part of one. -/
def expr {α : Type} (f : FunctionContext) (lower : LoweringContext → ScratchM α) :
    LoweringM α := fun s =>
  match lower (f.withSymbols s.symbols) s.scratch with
  | .ok (a, scratch) => .ok a { s with scratch }
  | .error e => .error e s

/-- Defines a variable. -/
def define (name : String) (type : DataType) (role : Role) (location : Location) :
    LoweringM Variable := fun s =>
  match s.symbols.defineVariable name type role location with
  | .ok (var, symbols) => .ok var { s with symbols }
  | .error e => .error (.semantic e) s

/-- Changes the symbol table. -/
def withTable (f : SymbolTable → SymbolTable) (s : LoweringState) : LoweringState :=
  { s with symbols := f s.symbols }

/-- Lowers in a scope of its own, which is closed also after an error. -/
def inScope {α : Type} (action : LoweringM α) : LoweringM α := fun s =>
  match action (withTable .enterScope s) with
  | .ok a s' => .ok a (withTable .exitScope s')
  | .error e s' => .error e (withTable .exitScope s')

/-! ### Declarations -/

/-- Defines the names of a declaration with the types that the checker found. -/
def defineBindings (location : Location) : List Binding → LoweringM (List Variable)
  | [] => pure []
  | b :: bs => do
    match b.resolved with
    | none => abort (.unresolved b.name) location
    | some type =>
      let var ← define b.name type .declaration b.location
      let vars ← defineBindings location bs
      return var :: vars

/-- Copies the slots of a variable to those of another. -/
def copySlots (source target width : Nat) : List Instr :=
  (List.range width).flatMap fun k => [.localGet (source + k), .localSet (target + k)]

/-- Sets the slots of a variable to zero. -/
def zeroSlots (var : Variable) : List Instr :=
  (var.type.machineTypes.zipIdx).flatMap fun (type, k) =>
    [.zero type, .localSet (var.slot + k)]

/-- Gives the value on the stack to the first variable and copies it to the others. -/
def initialCode (first : Variable) (others : List Variable) : List Instr :=
  setSlots first.slot first.type.width ++
    others.flatMap fun var => copySlots first.slot var.slot first.type.width

/-- Lowers a declaration. The value is evaluated once, before the names exist. -/
def lowerDeclaration (f : FunctionContext) (location : Location) (bindings : List Binding) :
    Option Expr → LoweringM (List Instr)
  | none => do
    let vars ← defineBindings location bindings
    return vars.flatMap zeroSlots
  | some value => do
    let l ← expr f (lowerExpr · value)
    match ← defineBindings location bindings with
    | [] => abort .emptyDeclaration location
    | first :: others => return l.code ++ initialCode first others

/-! ### Statements -/

/-- Lowers an assignment. -/
def lowerAssignment (f : FunctionContext) (value : Expr) : (target : Expr) →
    LoweringM (List Instr)
  | .identifier location name => do
    match (← get).symbols.lookupVariable? name with
    | none => throw (.semantic (.undefined .variable name location))
    | some var =>
      let l ← expr f (lowerExpr · value)
      return l.code ++ setSlots var.slot var.type.width
  | .member _ base name => do
    let b ← expr f (lowerExpr · base)
    let (i, type) ← expr f fun _ => fieldOf b.type name base.location
    let l ← expr f (lowerExpr · value)
    return b.code ++ l.code ++ [storeCell type i]
  | other => abort .assignmentTarget other.location

/-- The loop around a condition and a body. -/
def loopCode (condition body : List Instr) : List Instr :=
  [.block none [.loop none (condition ++ [.i32Eqz, .brIf 1] ++ body ++ [.br 0])]]

/-- The host function that prints values of a type. -/
def printCode (type : DataType) : Instr :=
  .call (if type = .string then printStringIndex else printIndex)

mutual

/-- Lowers a statement. -/
def lowerStmt (f : FunctionContext) : Stmt → LoweringM (List Instr)
  | .declare location _ bindings value => lowerDeclaration f location bindings value
  | .function location .. => abort .nestedDeclaration location
  | .struct location _ => abort .nestedDeclaration location
  | .ret _ none => return [.ret]
  | .ret _ (some value) => do
    let l ← expr f (lowerExpr · value)
    return l.code ++ [.ret]
  | .assign _ target value => lowerAssignment f value target
  | .conditional _ condition body none => do
    let l ← expr f (lowerExpr · condition)
    let body ← inScope (lowerStmts f body)
    return l.code ++ [.branch none body none]
  | .conditional _ condition body (some alternate) => do
    let l ← expr f (lowerExpr · condition)
    let body ← inScope (lowerStmts f body)
    let alternate ← lowerStmt f alternate
    return l.code ++ [.branch none body (some alternate)]
  | .whileLoop _ condition body => do
    let l ← expr f (lowerExpr · condition)
    let body ← inScope (lowerStmts f body)
    return loopCode l.code body
  | .print _ value => do
    let l ← expr f (lowerExpr · value)
    return l.code ++ [printCode l.type]
  | .expression _ value => do
    let l ← expr f (lowerExpr · value)
    return l.code ++ List.replicate l.type.width .drop
  | .block _ body => inScope (lowerStmts f body)

/-- Lowers statements in order. -/
def lowerStmts (f : FunctionContext) : List Stmt → LoweringM (List Instr)
  | [] => pure []
  | s :: ss => do
    let code ← lowerStmt f s
    let rest ← lowerStmts f ss
    return code ++ rest

end

end Lowering

/-! ### Frames -/

/-- Slots that the bindings of a declaration will occupy. -/
def bindingsWidth (location : Location) : List Binding → Except LoweringError Nat
  | [] => .ok 0
  | b :: bs => do
    match b.resolved with
    | none => .error (.invariant (.unresolved b.name) (.source location))
    | some type => do
      let width ← bindingsWidth location bs
      .ok (type.width + width)

mutual

/-- Slots that the declarations in a statement will occupy. -/
def Stmt.frameWidth : Stmt → Except LoweringError Nat
  | .declare location _ bindings _ => bindingsWidth location bindings
  | .conditional _ _ body none => framesWidth body
  | .conditional _ _ body (some alternate) => do
    let other ← alternate.frameWidth
    let width ← framesWidth body
    .ok (width + other)
  | .whileLoop _ _ body => framesWidth body
  | .block _ body => framesWidth body
  | .function .. | .struct .. | .ret .. | .assign .. | .print .. | .expression .. => .ok 0

/-- Slots that the declarations in statements will occupy. No slot is used twice, so these are
all there are. -/
def framesWidth : List Stmt → Except LoweringError Nat
  | [] => .ok 0
  | s :: ss => do
    let width ← s.frameWidth
    let rest ← framesWidth ss
    .ok (width + rest)

end

end WasmCompiler
