import WasmCompiler.Symbols.Declare
import WasmCompiler.Typing.Expr

/-!
# Checking a program

Every function body is walked once, with the scopes that its blocks open, and the type of each
binding is written into the tree. The functions and structs must be declared before.
-/

namespace WasmCompiler

namespace SymbolTable

/-- Asks the table. -/
def query {α : Type} (f : SymbolTable → Except SemanticError α) : SymbolM α := fun t =>
  match f t with
  | .ok a => .ok a t
  | .error e => .error e t

/-- Defines a variable. -/
def define (name : String) (type : DataType) (role : Role) (location : Location) :
    SymbolM Variable := fun t =>
  match t.defineVariable name type role location with
  | .ok (var, t') => .ok var t'
  | .error e => .error e t

/-- Does something and then `close`, also if it fails. -/
def closing {α : Type} (close : SymbolTable → SymbolTable) (action : SymbolM α) : SymbolM α :=
  fun t =>
    match action t with
    | .ok a t' => .ok a (close t')
    | .error e t' => .error e (close t')

/-- Does something in a scope of its own. -/
def inScope {α : Type} (action : SymbolM α) : SymbolM α := do
  modify enterScope
  closing exitScope action

end SymbolTable

open SymbolTable (query define closing inScope)

/-! ### Statements -/

/-- The type of a declaration's initial value; `none` if it has none or if only the declared
type can tell. -/
def initialType (t : SymbolTable) (value : Option Expr) :
    Except SemanticError (Option DataType) :=
  match value with
  | none => .ok none
  | some e => if e.isEmptyArray then .ok none else some <$> typeOf t e

/-- The type of a binding with a declared type. -/
def declaredType (t : SymbolTable) (b : Binding) (declared : TypeName)
    (initial : Option DataType) (hasValue : Bool) : Except SemanticError DataType := do
  let type ← t.resolve b.location declared
  match initial with
  | some found =>
    if found = type then .ok type
    else .error (.mismatch (.initializer b.name) (.type type) (.type found) b.location)
  | none =>
    if hasValue && !type.isArray then
      .error (.mismatch (.initializer b.name) (.type type) .emptyArray b.location)
    else .ok type

/-- The type of a binding, which is that of a value. -/
def bindingType (t : SymbolTable) (initial : Option DataType) (hasValue : Bool) (b : Binding) :
    Except SemanticError DataType := do
  let type ←
    match b.declared, initial with
    | some declared, _ => declaredType t b declared initial hasValue
    | none, some found => .ok found
    | none, none => .error (.missingType b.name b.location)
  if type.isNone then .error (.mismatch (.variable b.name) .value (.type type) b.location)
  else .ok type

/-- Defines the names of a declaration, in order. -/
def defineBindings : List (Binding × DataType) → SymbolM (List Binding)
  | [] => pure []
  | (b, type) :: rest => do
    let _ ← define b.name type .declaration b.location
    let others ← defineBindings rest
    return { b with resolved := some type } :: others

/-- Checks a declaration. Its value is typed before any of its names exists. -/
def checkDeclaration (bindings : List Binding) (value : Option Expr) : SymbolM (List Binding) := do
  let initial ← query (initialType · value)
  let types ← query fun t => bindings.mapM (bindingType t initial value.isSome)
  defineBindings (bindings.zip types)

/-- Checks that a condition is an integer. -/
def checkCondition (t : SymbolTable) (condition : Expr) : Except SemanticError Unit := do
  let type ← typeOf t condition
  if type = .i32 then .ok ()
  else .error (.mismatch .condition (.type .i32) (.type type) condition.location)

/-- Checks that a value can be printed. -/
def checkPrint (t : SymbolTable) (value : Expr) : Except SemanticError Unit := do
  let type ← typeOf t value
  if type = .i32 ∨ type = .string then .ok ()
  else .error (.mismatch .print .printable (.type type) value.location)

/-- Checks an assignment. -/
def checkAssignment (t : SymbolTable) (target value : Expr) : Except SemanticError Unit :=
  match target with
  | .identifier location name =>
    match t.lookupVariable? name with
    | some var => expectType t value var.type (.assignment name)
    | none => .error (.undefined .variable name location)
  | .member _ _ name => do
    expectType t value (← typeOf t target) (.fieldAssignment name)
  | _ => .error (.misplaced .assignmentTarget target.location)

/-- Checks a return from a function that gives `result`. -/
def checkReturn (t : SymbolTable) (result : DataType) (location : Location) :
    Option Expr → Except SemanticError Unit
  | none =>
    if result.isNone then .ok ()
    else .error (.mismatch .returned (.type result) (.type .none) location)
  | some value =>
    if result.isNone then do
      let found ← typeOf t value
      .error (.mismatch .returned (.type result) (.type found) value.location)
    else expectType t value result .returned

mutual

/-- Checks a statement of a function that gives `result`, and fills in its bindings. -/
def checkStmt (result : DataType) : Stmt → SymbolM Stmt
  | .declare location isMutable bindings value => do
    return .declare location isMutable (← checkDeclaration bindings value) value
  | .function location header _ =>
    throw (.misplaced (.nestedFunction header.name) location)
  | .struct location decl =>
    throw (.misplaced (.nestedStruct decl.name) location)
  | .ret location value => do
    query (checkReturn · result location value)
    return .ret location value
  | .assign location target value => do
    query (checkAssignment · target value)
    return .assign location target value
  | .conditional location condition body none => do
    query (checkCondition · condition)
    let body ← inScope (checkStmts result body)
    return .conditional location condition body none
  | .conditional location condition body (some alternate) => do
    query (checkCondition · condition)
    let body ← inScope (checkStmts result body)
    let alternate ← checkStmt result alternate
    return .conditional location condition body (some alternate)
  | .whileLoop location condition body => do
    query (checkCondition · condition)
    let body ← inScope (checkStmts result body)
    return .whileLoop location condition body
  | .print location value => do
    query (checkPrint · value)
    return .print location value
  | .expression location value => do
    let _ ← query (typeOf · value)
    return .expression location value
  | .block location body => do
    return .block location (← inScope (checkStmts result body))

/-- Checks statements in order. -/
def checkStmts (result : DataType) : List Stmt → SymbolM (List Stmt)
  | [] => pure []
  | s :: ss => do
    let s ← checkStmt result s
    let ss ← checkStmts result ss
    return s :: ss

end

/-! ### Functions -/

/-- Defines the parameters of a function, each of which is a value. -/
def checkParams : List (Field × DataType) → SymbolM Unit
  | [] => pure ()
  | (param, type) :: rest => do
    if type.isNone then
      throw (.mismatch (.parameter param.name) .value (.type type) param.location)
    let _ ← define param.name type .parameter param.location
    checkParams rest

/-- Checks a function. Its parameters and the statements of its body share one scope, which stays
open if a parameter is at fault. -/
def checkFunction (location : Location) (header : FunctionHeader) (body : List Stmt) :
    SymbolM (List Stmt) := do
  let signature ← query fun t =>
    match t.function? header.name with
    | some signature => .ok signature
    | none => .error (.undefined .function header.name location)
  modify SymbolTable.enterFunction
  -- an error here leaves the scope as it is
  checkParams (header.params.zip signature.params)
  closing SymbolTable.exitFunction (checkStmts signature.result body)

/-- Checks a statement that is not in any function. -/
def checkTopLevel : Stmt → SymbolM Stmt
  | .function location header body => do
    return .function location header (← checkFunction location header body)
  | .struct location decl => return .struct location decl
  | other => throw (.misplaced .topLevelStatement other.location)

/-- Checks a program and fills in its bindings. -/
def checkProgram (program : Program) : SymbolM Program := do
  return ⟨← program.statements.mapM checkTopLevel⟩

end WasmCompiler
