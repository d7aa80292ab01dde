import WasmCompiler.Tree.Parser.Basic

/-!
# Parsing expressions

Operands are parsed first; an operator after an operand is folded in as long as it binds more
tightly than the context asks for, so every binary operator associates to the left.

Nesting is limited. A parser is given the number of levels it may still use; an expression takes
one, and so does each operator folded into it, because it makes the tree higher. The number of
levels is what the recursion is on.
-/

namespace WasmCompiler.Parse

/-! ### Operators -/

/-- What can follow an operand and continue the expression. -/
inductive Continuation where
  | call
  | index
  | member
  | binary (op : BinaryOp)
deriving DecidableEq, Repr

namespace Continuation

/-- The continuation that a token begins. -/
def ofToken? : TokenKind → Option Continuation
  | .lparen => some .call
  | .lbracket => some .index
  | .dot => some .member
  | .star => some (.binary .mul)
  | .slash => some (.binary .div)
  | .plus => some (.binary .add)
  | .minus => some (.binary .sub)
  | .eq => some (.binary .eq)
  | .ne => some (.binary .ne)
  | .lt => some (.binary .lt)
  | .gt => some (.binary .gt)
  | .le => some (.binary .le)
  | .ge => some (.binary .ge)
  | .andAnd => some (.binary .and)
  | .orOr => some (.binary .or)
  | _ => none

/-- How tightly an operator binds; more is tighter. -/
def precedence : Continuation → Nat
  | .call | .index | .member => 7
  | .binary .mul | .binary .div => 6
  | .binary .add | .binary .sub => 5
  | .binary .and => 3
  | .binary .or => 2
  | .binary _ => 4

end Continuation

/-- The precedence that admits every operator. -/
def lowest : Nat := 0

/-- Operators up to this precedence end the operand of a unary operator. -/
def unaryPrecedence : Nat := 6

/-! ### Parts -/

/-- Expressions with commas between them, up to and with a closing token. -/
def expressionList (inner : Nat → ParseM Expr) (close : TokenKind) : ParseM (List Expr) := do
  let items ← if ← check close then pure [] else commaSeparated (inner lowest)
  let _ ← expect close
  return items

/-- What follows an opening parenthesis: a grouped expression, or a tuple if there is a comma. -/
def parenthesised (inner : Nat → ParseM Expr) (location : Location) : ParseM Expr := do
  let first ← inner lowest
  if ← check .comma then
    let others ← many anotherElement (inner lowest)
    let _ ← expect .rparen
    return .tuple location (first :: others)
  else
    let _ ← expect .rparen
    return first

/-- An operand: a literal, a name, a unary operator with its operand, or something in brackets.
`inner` parses the expressions in it. -/
def operand (inner : Nat → ParseM Expr) : ParseM Expr := do
  let token ← advance
  let location := token.location
  match token.kind with
  | .integer value => return .integer location value
  | .float value => return .float location value
  | .kwTrue => return .integer location 1
  | .kwFalse => return .integer location 0
  | .string text =>
    intern text location
    return .string location text
  | .identifier name => return .identifier location name
  | .minus => return .unary location .negate (← inner unaryPrecedence)
  | .bang => return .unary location .not (← inner unaryPrecedence)
  | .lparen => parenthesised inner location
  | .lbracket => return .array location (← expressionList inner .rbracket)
  | _ => throw (.unexpected .expression token)

/-- The continuation at the current token, if it binds more tightly than `precedence`. -/
def continuation? (precedence : Nat) : ParseM (Option Continuation) := do
  return (Continuation.ofToken? (← peek).kind).filter (precedence < ·.precedence)

/-- Takes a continuation and folds it into the expression to its left. -/
def extend (inner : Nat → ParseM Expr) (left : Expr) (c : Continuation) : ParseM Expr := do
  let token ← advance
  let location := left.location
  match c with
  | .call =>
    match left with
    | .identifier _ callee => return .call location callee (← expressionList inner .rparen)
    | _ => throw (.malformed .callee token.location)
  | .index =>
    let index ← inner lowest
    let _ ← expect .rbracket
    return .index location left index
  | .member =>
    let (name, _) ← expectName .fieldName
    return .member location left name
  | .binary op => return .binary location op left (← inner c.precedence)

/-! ### Expressions -/

mutual

/-- An expression whose outermost operators bind more tightly than `precedence`. -/
def expression : (levels : Nat) → (precedence : Nat) → ParseM Expr
  | 0, _ => fail .tooDeep
  | levels + 1, precedence => do
    let left ← operand (expression levels)
    climb levels precedence left

/-- Folds the operators after an expression into it. -/
def climb : (levels : Nat) → (precedence : Nat) → (left : Expr) → ParseM Expr
  | 0, precedence, left => do
    match ← continuation? precedence with
    | none => return left
    | some _ => fail .tooDeep
  | levels + 1, precedence, left => do
    match ← continuation? precedence with
    | none => return left
    | some c =>
      let left ← extend (expression levels) left c
      climb levels precedence left

end

end WasmCompiler.Parse
