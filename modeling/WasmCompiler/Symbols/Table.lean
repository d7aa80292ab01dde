import WasmCompiler.Symbols.StringPool
import WasmCompiler.Typing.Error

/-!
# The symbol table

What the names of a program stand for: variables in nested scopes, functions and structs of the
whole program, and the string pool. Each variable of a function gets slots of its own, numbered
from zero in order of definition; slots of a closed scope are not used again.

Checking and lowering a function drive the table through the same sequence of operations, so both
see the same slots.
-/

namespace WasmCompiler

/-- Functions that the host provides. -/
def printName : String := "print"

def printStringName : String := "printString"

/-- The name under which linear memory is exported. -/
def memoryName : String := "memory"

/-- The primitive types by name. -/
def primitiveNames : List (String × DataType) :=
  [("i32", .i32), ("f64", .f64), ("string", .string), ("none", .none)]

/-- Names that no function or struct may take. -/
def reservedNames : List String :=
  [printName, printStringName] ++ primitiveNames.map (·.1)

/-- Address of the first string literal unless a program asks for another. Nothing is placed at
address zero. -/
def defaultMemoryStart : Nat := 8

/-- The highest start that a compilation accepts. -/
def maxMemoryStart : Nat := 0x40000000

/-- How a variable came to be. -/
inductive Role where
  | declaration
  | parameter
deriving DecidableEq, Repr, Inhabited

structure Variable where
  name : String
  type : DataType
  /-- The first of the slots, of which there are as many as the type is wide. -/
  slot : Nat
  role : Role
deriving DecidableEq, Repr, Inhabited

/-- The name of the variable's struct type, if it has one. -/
def Variable.structName? (v : Variable) : Option String :=
  match v.type with
  | .struct name _ => some name
  | _ => none

structure Signature where
  params : List DataType
  result : DataType
deriving DecidableEq, Repr, Inhabited

structure SymbolTable where
  /-- The variables of the open scopes, the innermost scope first. -/
  scopes : List (List Variable)
  functions : List (String × Signature)
  /-- The fields of each struct. -/
  structs : List (String × List (String × DataType))
  strings : StringPool
  nextSlot : Nat
  /-- The variables that the current function declares, in order. -/
  declared : List Variable
  exportsMemory : Bool
deriving Repr, Inhabited

namespace SymbolTable

/-- A table that knows nothing, with its string pool at an address. -/
def empty (memoryStart : Nat) : SymbolTable :=
  { scopes := []
    functions := []
    structs := []
    strings := .empty memoryStart
    nextSlot := 0
    declared := []
    exportsMemory := true }

/-! ### Scopes -/

def enterScope (t : SymbolTable) : SymbolTable :=
  { t with scopes := [] :: t.scopes }

def exitScope (t : SymbolTable) : SymbolTable :=
  { t with scopes := t.scopes.tail }

/-- Opens the scope of a function, whose slots start at zero. -/
def enterFunction (t : SymbolTable) : SymbolTable :=
  { t with nextSlot := 0, declared := [], scopes := [] :: t.scopes }

/-- Leaves a function: the variables that it declared, in order, and the table with its scope
closed. -/
def leaveFunction (t : SymbolTable) : List Variable × SymbolTable :=
  (t.declared, { t.exitScope with nextSlot := 0, declared := [] })

/-- The table after a function. -/
def exitFunction (t : SymbolTable) : SymbolTable :=
  t.leaveFunction.2

/-- The variable of a name in one scope. -/
def findIn (name : String) (scope : List Variable) : Option Variable :=
  scope.find? (·.name = name)

/-- The variable that a name stands for: the one of the innermost scope that has it. -/
def lookupVariable? (t : SymbolTable) (name : String) : Option Variable :=
  t.scopes.findSome? (findIn name)

/-- Gives a name to the next slots, in the innermost scope. -/
def defineVariable (t : SymbolTable) (name : String) (type : DataType) (role : Role)
    (location : Location) : Except SemanticError (Variable × SymbolTable) :=
  match t.scopes with
  | [] => .error (.misplaced (.variableOutsideScope name) location)
  | scope :: outer =>
    match findIn name scope with
    | some _ => .error (.duplicate name location)
    | none =>
      let var : Variable := ⟨name, type, t.nextSlot, role⟩
      .ok (var,
        { t with
          scopes := (var :: scope) :: outer
          nextSlot := t.nextSlot + type.width
          declared := if role = .declaration then t.declared ++ [var] else t.declared })

/-! ### Functions and structs -/

def function? (t : SymbolTable) (name : String) : Option Signature :=
  t.functions.lookup name

def struct? (t : SymbolTable) (name : String) : Option (List (String × DataType)) :=
  t.structs.lookup name

/-- Whether a function or struct of the name would be a second one. -/
def isTaken (t : SymbolTable) (name : String) : Bool :=
  (t.function? name).isSome || (t.struct? name).isSome || reservedNames.contains name

def defineFunction (t : SymbolTable) (name : String) (signature : Signature)
    (location : Location) : Except SemanticError SymbolTable :=
  if t.isTaken name then .error (.duplicate name location)
  else .ok { t with functions := (name, signature) :: t.functions }

def defineStruct (t : SymbolTable) (name : String) (fields : List (String × DataType))
    (location : Location) : Except SemanticError SymbolTable :=
  if t.isTaken name then .error (.duplicate name location)
  else .ok { t with structs := (name, fields) :: t.structs }

/-! ### Types -/

mutual

/-- The type that an annotation stands for. -/
def resolve (t : SymbolTable) (location : Location) : TypeName → Except SemanticError DataType
  | .named name =>
    match primitiveNames.lookup name with
    | some type => .ok type
    | none =>
      match t.struct? name with
      | some fields => .ok (.struct name fields)
      | none => .error (.undefined .type name location)
  | .array element => do
    let element ← resolve t location element
    if element.fitsCell then .ok (.array element)
    else .error (.mismatch .arrayElementType .singleValue (.type element) location)
  | .tuple elements => do
    let elements ← resolveAll t location elements
    .ok (.tuple elements)

/-- The types that annotations stand for. -/
def resolveAll (t : SymbolTable) (location : Location) :
    List TypeName → Except SemanticError (List DataType)
  | [] => .ok []
  | a :: as => do
    let type ← resolve t location a
    let types ← resolveAll t location as
    .ok (type :: types)

end

/-! ### Strings -/

def stringOffset? (t : SymbolTable) (text : String) : Option Nat :=
  t.strings.offset? text

/-- Puts a literal into the pool, if it fits. -/
def internString (t : SymbolTable) (text : String) : Option Nat × SymbolTable :=
  match t.strings.intern? text with
  | some (offset, strings) => (some offset, { t with strings })
  | none => (none, t)

/-- The first address after the string literals, where the heap begins. -/
def heapBase (t : SymbolTable) : Nat :=
  t.strings.limit

end SymbolTable

end WasmCompiler
