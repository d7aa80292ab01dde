import WasmCompiler.Symbols.Table

/-!
# Types of expressions

`typeOf` gives the type of an expression in the current scope of a symbol table, which it only
reads, so the lowering can ask the same question.
-/

namespace WasmCompiler

/-- The result of a binary operator, if it accepts its operands. Arithmetic takes numbers,
comparison takes numbers or two values of one single-value type, and the logical operators take
integers. -/
def BinaryOp.result? (op : BinaryOp) (left right : DataType) : Option DataType :=
  if op.isArithmetic then left.arithmeticResult right
  else if op.isComparison then
    if (left.arithmeticResult right).isSome || (left = right && left.fitsCell) then some .i32
    else none
  else if left = .i32 && right = .i32 then some .i32
  else none

/-- The operands that an operator accepts, in an error. -/
def BinaryOp.expectedOperands (op : BinaryOp) : Mismatch.Expected :=
  if op.isArithmetic then .numbers
  else if op.isComparison then .sameType
  else .integers

/-- The literal index of a tuple element, if it is one of `count`. -/
def Expr.elementIndex? (index : Expr) (count : Nat) : Option Nat :=
  match index with
  | .integer _ value => if 0 ≤ value ∧ value < count then some value.toNat else none
  | _ => none

/-- What a name means in a call: a function of the host, a function of the program, or the
constructor of a struct, which takes the fields. -/
def SymbolTable.callable? (t : SymbolTable) (name : String) : Option Signature :=
  if name = printName then some ⟨[.i32], .none⟩
  else if name = printStringName then some ⟨[.string], .none⟩
  else
    match t.function? name with
    | some signature => some signature
    | none => (t.struct? name).map fun fields => ⟨fields.map (·.2), .struct name fields⟩

/-- Compares the type found for an expression with the one that its place asks for. An array
literal without items fits any array type. -/
def requireType (e : Expr) (found : Except SemanticError DataType) (expected : DataType)
    (context : Mismatch.Context) : Except SemanticError Unit :=
  if e.isEmptyArray && expected.isArray then .ok ()
  else do
    let type ← found
    if type = expected then .ok ()
    else .error (.mismatch context (.type expected) (.type type) e.location)

/-- The type of an operator applied to an operand. -/
def unaryType (location : Location) (op : UnaryOp) (type : DataType) :
    Except SemanticError DataType :=
  match op with
  | .negate =>
    if type.isNumeric then .ok type
    else .error (.mismatch .negated .number (.type type) location)
  | .not => .error (.mismatch .unaryOperator .negation (.complement type) location)

/-- The type of a field of a value. -/
def memberType (location : Location) (base : DataType) (name : String) :
    Except SemanticError DataType :=
  match base with
  | .struct struct _ =>
    match base.field? name with
    | some (_, type) => .ok type
    | none => .error (.undefined .field (struct ++ "." ++ name) location)
  | _ => .error (.mismatch (.fieldAccess name) .struct (.type base) location)

mutual

/-- The type of an expression. -/
def typeOf (t : SymbolTable) : Expr → Except SemanticError DataType
  | .integer .. => .ok .i32
  | .float .. => .ok .f64
  | .string .. => .ok .string
  | .identifier location name =>
    match t.lookupVariable? name with
    | some v => .ok v.type
    | none => .error (.undefined .variable name location)
  | .unary location op operand => do
    unaryType location op (← typeOf t operand)
  | .binary location op left right => do
    let l ← typeOf t left
    let r ← typeOf t right
    match op.result? l r with
    | some type => .ok type
    | none => .error (.mismatch (.operands op) op.expectedOperands (.both l r) location)
  | .call location callee args =>
    match t.callable? callee with
    | none => .error (.undefined .function callee location)
    | some signature =>
      if args.length = signature.params.length then do
        checkArgs t callee 1 args signature.params
        .ok signature.result
      else .error (.arity callee signature.params.length args.length location)
  | .member location base name => do
    memberType location (← typeOf t base) name
  | .index location base index => do
    match ← typeOf t base with
    | .array element =>
      let type ← typeOf t index
      if type = .i32 then .ok element
      else .error (.mismatch .arrayIndex (.type .i32) (.type type) index.location)
    | .tuple elements =>
      match (index.elementIndex? elements.length).bind (elements[·]?) with
      | some type => .ok type
      | none =>
        .error (.mismatch .tupleIndex (.literalBelow elements.length) .expression index.location)
    | other => .error (.mismatch .indexing .indexable (.type other) location)
  | .array location [] => .error (.missingType "[]" location)
  | .array _ (first :: rest) => do
    let element ← typeOf t first
    if element.fitsCell then do
      checkItems t element rest
      .ok (.array element)
    else .error (.mismatch .arrayElement .singleValue (.type element) first.location)
  | .tuple _ items => do
    .ok (.tuple (← elementTypes t items))

/-- The types of the elements of a tuple, each of which is a value. -/
def elementTypes (t : SymbolTable) : List Expr → Except SemanticError (List DataType)
  | [] => .ok []
  | item :: items => do
    let type ← typeOf t item
    if type.isNone then .error (.mismatch .tupleElement .value (.type type) item.location)
    else do
      let types ← elementTypes t items
      .ok (type :: types)

/-- Compares the items of an array with the type of its first. -/
def checkItems (t : SymbolTable) (element : DataType) : List Expr → Except SemanticError Unit
  | [] => .ok ()
  | item :: items => do
    requireType item (typeOf t item) element .arrayElement
    checkItems t element items

/-- Compares the arguments of a call with its parameters, counting them from `position`. -/
def checkArgs (t : SymbolTable) (callee : String) (position : Nat) :
    List Expr → List DataType → Except SemanticError Unit
  | arg :: args, param :: params => do
    requireType arg (typeOf t arg) param (.argument position callee)
    checkArgs t callee (position + 1) args params
  | _, _ => .ok ()

end

/-- Compares the type of an expression with the one that its place asks for. -/
def expectType (t : SymbolTable) (e : Expr) (expected : DataType) (context : Mismatch.Context) :
    Except SemanticError Unit :=
  requireType e (typeOf t e) expected context

end WasmCompiler
