import WasmCompiler.Symbols.Table

/-!
# Declaring a program

All structs and functions of a program are registered before any body is looked at, so bodies may
refer to what comes later. Structs come first, in order; a field may name only a struct above it.
An error leaves what was registered before it in the table.
-/

namespace WasmCompiler

/-- Operations on a symbol table that may fail and keep what they did before. -/
abbrev SymbolM := EStateM SemanticError SymbolTable

namespace SymbolTable

/-- The types of a struct's fields, of which no two share a name and each fits a cell. -/
def resolveFields (t : SymbolTable) (struct : String) :
    List (String × DataType) → List Field → Except SemanticError (List (String × DataType))
  | done, [] => .ok done
  | done, f :: fs => do
    if done.any (·.1 = f.name) then
      throw (.duplicate (struct ++ "." ++ f.name) f.location)
    let type ← t.resolve f.location f.type
    unless type.fitsCell do
      throw (.mismatch (.field struct f.name) .singleValue (.type type) f.location)
    t.resolveFields struct (done ++ [(f.name, type)]) fs

/-- The types of a function's parameters. -/
def resolveParams (t : SymbolTable) : List Field → Except SemanticError (List DataType)
  | [] => .ok []
  | f :: fs => do
    let type ← t.resolve f.location f.type
    let types ← t.resolveParams fs
    .ok (type :: types)

/-- The types that a function takes and gives. -/
def resolveSignature (t : SymbolTable) (header : FunctionHeader) (location : Location) :
    Except SemanticError Signature := do
  let params ← t.resolveParams header.params
  let result ←
    match header.returnType with
    | some type => t.resolve location type
    | none => .ok .none
  .ok ⟨params, result⟩

/-- Registers a struct. -/
def declareStruct (t : SymbolTable) (decl : StructDecl) (location : Location) :
    Except SemanticError SymbolTable := do
  let fields ← t.resolveFields decl.name [] decl.fields
  t.defineStruct decl.name fields location

/-- Registers a function. One that is exported may not take the name of the exported memory. -/
def declareFunction (t : SymbolTable) (header : FunctionHeader) (location : Location) :
    Except SemanticError SymbolTable := do
  let signature ← t.resolveSignature header location
  if header.exported && t.exportsMemory && header.name = memoryName then
    throw (.duplicate header.name location)
  t.defineFunction header.name signature location

/-- Replaces the table by the result of an operation on it. -/
def update (f : SymbolTable → Except SemanticError SymbolTable) : SymbolM Unit := fun t =>
  match f t with
  | .ok t' => .ok () t'
  | .error e => .error e t

/-- Registers the statement if it is a struct. -/
def declareIfStruct : Stmt → SymbolM Unit
  | .struct location decl => update (·.declareStruct decl location)
  | _ => pure ()

/-- Registers the statement if it is a function. -/
def declareIfFunction : Stmt → SymbolM Unit
  | .function location header _ => update (·.declareFunction header location)
  | _ => pure ()

/-- Registers all structs and then all functions of a program. -/
def declare (program : Program) : SymbolM Unit := do
  program.statements.forM declareIfStruct
  program.statements.forM declareIfFunction

end SymbolTable

end WasmCompiler
