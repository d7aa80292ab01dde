import WasmCompiler.Tree.Parser.Expr
import WasmCompiler.Tree.Parser.TypeName

/-!
# Parsing statements

A statement is known by its first token. Blocks and the branches of a chain of conditions take
one level of nesting each; `Level` bundles the parsers that are available one level further down.
-/

namespace WasmCompiler.Parse

/-- The parsers of one nesting level. -/
structure Level where
  statement : ParseM Stmt
  /-- A conditional, from its `if` on. -/
  conditional : ParseM Stmt

/-- Goes one level down, if there is one. -/
def descend (inner : Option Level) : ParseM Level :=
  match inner with
  | some level => pure level
  | none => fail .tooDeep

/-- Statements between braces. -/
def block (inner : Option Level) : ParseM (List Stmt) := do
  let _ ← expect .lbrace
  let level ← descend inner
  skipSemicolons
  let statements ← many (notAt .rbrace) level.statement
  let _ ← expect .rbrace
  return statements

/-- A function, from its `func` on. -/
def function (inner : Option Level) (exported : Bool) : ParseM Stmt := do
  let token ← expect .kwFunc
  let (name, _) ← expectName .functionName
  let _ ← expect .lparen
  let params ← if ← check .rparen then pure [] else commaSeparated (field .parameterName)
  let _ ← expect .rparen
  let returnType ← if ← accept .arrow then some <$> typeName else pure none
  let body ← block inner
  return .function token.location ⟨name, params, returnType, exported⟩ body

/-- A function that the host can call. -/
def exportedFunction (inner : Option Level) : ParseM Stmt := do
  let _ ← expect .kwExport
  if ← check .kwFunc then function inner true else unexpected .functionAfterExport

/-- A struct; the commas between its fields are optional. -/
def structDecl : ParseM Stmt := do
  let token ← expect .kwStruct
  let (name, _) ← expectName .structName
  let _ ← expect .lbrace
  let fields ← many (notAt .rbrace) do
    let f ← field .fieldName
    let _ ← accept .comma
    return f
  let _ ← expect .rbrace
  return .struct token.location ⟨name, fields⟩

/-- A return; without a value if nothing that could be one follows. -/
def returnStmt (levels : Nat) : ParseM Stmt := do
  let token ← expect .kwReturn
  let kind := (← peek).kind
  let value ←
    if kind = .semicolon || kind = .rbrace || kind = .endOfInput then pure none
    else some <$> expression levels lowest
  return .ret token.location value

/-- One name of a declaration, with its type if one is given. -/
def binding : ParseM Binding := do
  let (name, location) ← expectName .variableName
  let declared ← if ← accept .colon then some <$> typeName else pure none
  return ⟨name, declared, none, location⟩

/-- A declaration, from its keyword on. -/
def declaration (levels : Nat) : ParseM Stmt := do
  let token ← advance
  let bindings ← commaSeparated binding
  let value ← if ← accept .assign then some <$> expression levels lowest else pure none
  return .declare token.location (token.kind = .kwVar) bindings value

/-- What follows an `else`: another conditional, one level down, or a block. -/
def alternate (inner : Option Level) : ParseM Stmt := do
  let token ← peek
  if token.kind = .kwIf then
    let level ← descend inner
    level.conditional
  else
    return .block token.location (← block inner)

/-- A conditional. -/
def conditional (levels : Nat) (inner : Option Level) : ParseM Stmt := do
  let token ← expect .kwIf
  let condition ← expression levels lowest
  let body ← block inner
  let other ← if ← accept .kwElse then some <$> alternate inner else pure none
  return .conditional token.location condition body other

/-- A loop. -/
def whileLoop (levels : Nat) (inner : Option Level) : ParseM Stmt := do
  let token ← expect .kwWhile
  let condition ← expression levels lowest
  let body ← block inner
  return .whileLoop token.location condition body

/-- A print statement. -/
def printStmt (levels : Nat) : ParseM Stmt := do
  let token ← expect .kwPrint
  return .print token.location (← expression levels lowest)

/-- Whether an expression can be assigned to. -/
def isTarget : Expr → Bool
  | .identifier .. | .member .. => true
  | _ => false

/-- An assignment, or an expression on its own. -/
def assignmentOrExpression (levels : Nat) : ParseM Stmt := do
  let start ← peek
  let target ← expression levels lowest
  if ← check .assign then
    unless isTarget target do
      throw (.malformed .assignmentTarget start.location)
    let _ ← advance
    let value ← expression levels lowest
    return .assign start.location target value
  else
    return .expression start.location target

/-- A statement with the semicolons after it. -/
def statement (levels : Nat) (inner : Option Level) : ParseM Stmt := do
  let token ← peek
  let stmt ←
    match token.kind with
    | .kwExport => exportedFunction inner
    | .kwFunc => function inner false
    | .kwReturn => returnStmt levels
    | .kwLet | .kwVar => declaration levels
    | .kwIf => conditional levels inner
    | .kwWhile => whileLoop levels inner
    | .kwPrint => printStmt levels
    | .kwStruct => structDecl
    | .lbrace => Stmt.block token.location <$> block inner
    | _ => assignmentOrExpression levels
  skipSemicolons
  return stmt

/-- The parsers with a number of levels left. -/
def level : Nat → Level
  | 0 => ⟨statement 0 none, conditional 0 none⟩
  | n + 1 =>
    let inner := some (level n)
    ⟨statement (n + 1) inner, conditional (n + 1) inner⟩

/-- Statements up to the end of the text. -/
def program : ParseM Program := do
  skipSemicolons
  return ⟨← many (notAt .endOfInput) (level maxNesting).statement⟩

end WasmCompiler.Parse

namespace WasmCompiler

open Parse in
/-- The program that a text is, and the pool with its string literals. -/
def parseProgram (text : String) (strings : StringPool) :
    Except ParseError Program × StringPool :=
  match start text strings with
  | .error e => (.error e, strings)
  | .ok parser =>
    match program parser with
    | .ok result parser => (.ok result, parser.strings)
    | .error e parser => (.error e, parser.strings)

end WasmCompiler
