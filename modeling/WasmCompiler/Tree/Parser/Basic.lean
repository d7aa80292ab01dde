import WasmCompiler.Symbols.StringPool
import WasmCompiler.Token.Lexer
import WasmCompiler.Tree.Basic

/-!
# Parsing tokens

A parser looks at one token, has the lexemes that follow it and collects string literals in a
pool. Its operations may fail; what was read and collected until then stays read and collected.

Repetitions are bounded by the number of lexemes left, since every round takes at least one.
-/

namespace WasmCompiler

/-! ### Errors -/

namespace Parse

/-- What a text may not contain although its tokens are in order. -/
inductive Malformed where
  | tooDeep
  | assignmentTarget
  | callee
  | stringsTooLarge
deriving DecidableEq, Repr

/-- The deepest nesting of expressions and blocks that is accepted. -/
def maxNesting : Nat := 256

def Malformed.text : Malformed → String
  | .tooDeep => "nesting exceeds " ++ toString maxNesting ++ " levels"
  | .assignmentTarget => "assignment target must be a variable or a field access"
  | .callee => "only named functions can be called"
  | .stringsTooLarge => "string literals do not fit in linear memory"

/-- What would have been right in the place of a token. -/
inductive Wanted where
  | token (kind : TokenKind)
  | functionAfterExport
  | functionName
  | parameterName
  | structName
  | fieldName
  | variableName
  | type
  | expression
deriving DecidableEq, Repr

def Wanted.text : Wanted → String
  | .token kind => kind.describe
  | .functionAfterExport => "'func' after 'export'"
  | .functionName => "function name"
  | .parameterName => "parameter name"
  | .structName => "struct name"
  | .fieldName => "field name"
  | .variableName => "variable name"
  | .type => "type"
  | .expression => "expression"

end Parse

/-- Why a text is not a program. -/
inductive ParseError where
  | malformed (what : Parse.Malformed) (location : Location)
  | unexpected (wanted : Parse.Wanted) (found : Token)
  | lex (error : LexError)
deriving DecidableEq, Repr

/-- The error in words. -/
def ParseError.message : ParseError → String
  | .malformed what location => "Syntax Error at " ++ location.text ++ ": " ++ what.text
  | .unexpected wanted found =>
    "Unexpected token: expected " ++ wanted.text ++ ", found " ++ found.kind.describe ++ " at " ++
      found.location.text
  | .lex error => error.message

/-! ### State -/

/-- Where a parser is. -/
structure Parser where
  /-- The token that is looked at. -/
  current : Token
  /-- The lexemes after it; the last one repeats forever. -/
  upcoming : List Lexeme
  /-- The string literals met so far. -/
  strings : StringPool
deriving Repr

/-- Operations of a parser. -/
abbrev ParseM := EStateM ParseError Parser

namespace Parse

/-- The lexemes after the first of some, the last of which repeats. -/
def dropLexeme : List Lexeme → List Lexeme
  | [] => []
  | [last] => [last]
  | _ :: rest => rest

/-- A parser at the beginning of a text. -/
def start (text : String) (strings : StringPool) : Except ParseError Parser :=
  match lexemes text with
  | [] => .ok ⟨⟨.endOfInput, Position.start.location⟩, [], strings⟩
  | .error e :: _ => .error (.lex e)
  | .ok token :: rest => .ok ⟨token, dropLexeme (.ok token :: rest), strings⟩

/-- Takes the current token. If the next one cannot be read, the current one stays. -/
def advance : ParseM Token := fun p =>
  match p.upcoming with
  | [] => .ok p.current p
  | .ok next :: _ =>
    .ok p.current { p with current := next, upcoming := dropLexeme p.upcoming }
  | .error e :: _ => .error (.lex e) { p with upcoming := dropLexeme p.upcoming }

/-- The current token, which is not taken. -/
def peek : ParseM Token := fun p =>
  .ok p.current p

/-- Whether the current token is of a kind. -/
def check (kind : TokenKind) : ParseM Bool := do
  return (← peek).kind = kind

/-- Gives up at the current token. -/
def fail {α : Type} (what : Malformed) : ParseM α := do
  throw (.malformed what (← peek).location)

/-- Gives up because the current token is not what is wanted. -/
def unexpected {α : Type} (wanted : Wanted) : ParseM α := do
  throw (.unexpected wanted (← peek))

/-- Takes a token of a kind. -/
def expect (kind : TokenKind) : ParseM Token := do
  if ← check kind then advance else unexpected (.token kind)

/-- Takes a name. -/
def expectName (wanted : Wanted) : ParseM (String × Location) := do
  match (← peek).kind with
  | .identifier name =>
    let token ← advance
    return (name, token.location)
  | _ => unexpected wanted

/-- Takes the current token if it is of a kind, and says whether it was. -/
def accept (kind : TokenKind) : ParseM Bool := do
  if ← check kind then
    let _ ← advance
    return true
  else
    return false

/-- Puts a string literal into the pool. -/
def intern (text : String) (location : Location) : ParseM Unit := fun p =>
  match p.strings.intern? text with
  | some (_, strings) => .ok () { p with strings }
  | none => .error (.malformed .stringsTooLarge location) p

/-! ### Repetition -/

/-- A number of rounds that no repetition exceeds. -/
def rounds : ParseM Nat := fun p =>
  .ok (p.upcoming.length + 1) p

/-- At most `n` items, each after `more` said that there is one. -/
def manyUpTo {α : Type} (more : ParseM Bool) (item : ParseM α) : Nat → ParseM (List α)
  | 0 => pure []
  | n + 1 => do
    if ← more then
      let x ← item
      let xs ← manyUpTo more item n
      return x :: xs
    else
      return []

/-- Items as long as `more` says that there is one. -/
def many {α : Type} (more : ParseM Bool) (item : ParseM α) : ParseM (List α) := do
  manyUpTo more item (← rounds)

/-- At least one item and at most `n`, with commas between them. -/
def commaSeparatedUpTo {α : Type} (item : ParseM α) : Nat → ParseM (List α)
  | 0 => pure []
  | n + 1 => do
    let x ← item
    if ← accept .comma then
      let xs ← commaSeparatedUpTo item n
      return x :: xs
    else
      return [x]

/-- At least one item, with commas between them. -/
def commaSeparated {α : Type} (item : ParseM α) : ParseM (List α) := do
  commaSeparatedUpTo item (← rounds)

/-- Whether a comma and, after it, another element of a tuple follow. Takes the comma, which may
also stand after the last element. -/
def anotherElement : ParseM Bool := do
  if ← accept .comma then
    return !(← check .rparen)
  else
    return false

/-- Takes semicolons as long as there are any. -/
def skipSemicolons : ParseM Unit := do
  let _ ← many (accept .semicolon) (pure ())

/-- Whether a list that ends with a token of a kind goes on. -/
def notAt (close : TokenKind) : ParseM Bool := do
  let kind := (← peek).kind
  return kind ≠ close && kind ≠ .endOfInput

end Parse

end WasmCompiler
