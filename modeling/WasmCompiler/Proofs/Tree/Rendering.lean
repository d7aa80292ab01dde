import WasmCompiler.Tree.Parser.Stmt
import WasmCompiler.Proofs.Tree.Parts

/-!
# Writing syntax trees

`Program.render` writes a program as a text. It has two stages: `Program.kinds` gives the tokens,
and each token is written with a blank after it. Parentheses stand only where the operators around
an expression would take it apart otherwise: `Expr.rank` says how tightly an expression holds
together, and every place for an expression asks for a least rank.

* `Program.isWritable` is the shape of the trees that can be written: names are words and no
  keywords, literals have a spelling, tuples and declarations are not empty.
* `Program.unlocated` forgets where the parts of a program stand, which no text that is written
  from it can keep.
* `lexesTo_render` says that the text of writable tokens consists of these tokens.
-/

namespace WasmCompiler

/-! ### Tokens -/

namespace TokenKind

/-- The token as a text has it. -/
def written : TokenKind → String
  | integer value => toString value
  | float value => value.display
  | string text => "'" ++ text ++ "'"
  | identifier name => name
  | other => other.spelling?.getD ""

/-- Tokens in parentheses, if these are needed. -/
def grouped (needed : Bool) (kinds : List TokenKind) : List TokenKind :=
  if needed then lparen :: (kinds ++ [rparen]) else kinds

/-- What is written for a list, with commas between the items. -/
def commas : List (List TokenKind) → List TokenKind
  | [] => []
  | first :: others => first ++ others.flatMap (comma :: ·)

/-- What is written for the elements of a tuple after its first. A comma tells a tuple of one
element from a group. -/
def otherElements : List (List TokenKind) → List TokenKind
  | [] => [comma]
  | second :: others => (second :: others).flatMap (comma :: ·)

/-- What is written for the elements of a tuple. -/
def elements : List (List TokenKind) → List TokenKind
  | [] => []
  | first :: others => first ++ otherElements others

/-- Tokens in braces. -/
def braced (kinds : List TokenKind) : List TokenKind :=
  lbrace :: (kinds ++ [rbrace])

/-- What is written for something that may be missing and that a token announces. -/
def announced {α : Type} (mark : TokenKind) (kinds : α → List TokenKind) :
    Option α → List TokenKind
  | none => []
  | some x => mark :: kinds x

end TokenKind

open TokenKind (grouped commas elements braced announced)

def UnaryOp.kind : UnaryOp → TokenKind
  | .negate => .minus
  | .not => .bang

def BinaryOp.kind : BinaryOp → TokenKind
  | .add => .plus
  | .sub => .minus
  | .mul => .star
  | .div => .slash
  | .eq => .eq
  | .ne => .ne
  | .lt => .lt
  | .gt => .gt
  | .le => .le
  | .ge => .ge
  | .and => .andAnd
  | .or => .orOr

/-- How tightly an operator binds; more is tighter. -/
def BinaryOp.precedence (op : BinaryOp) : Nat :=
  (Parse.Continuation.binary op).precedence

/-! ### Types and fields -/

mutual

/-- The tokens of an annotation. -/
def TypeName.kinds : TypeName → List TokenKind
  | .named name => [.identifier name]
  | .array element => .lbracket :: (element.kinds ++ [.rbracket])
  | .tuple types => .lparen :: (elements (TypeName.kindsAll types) ++ [.rparen])

/-- The tokens of each of some annotations. -/
def TypeName.kindsAll : List TypeName → List (List TokenKind)
  | [] => []
  | t :: ts => t.kinds :: TypeName.kindsAll ts

end

def Field.kinds (f : Field) : List TokenKind :=
  .identifier f.name :: .colon :: f.type.kinds

def Binding.kinds (b : Binding) : List TokenKind :=
  .identifier b.name :: announced .colon TypeName.kinds b.declared

/-! ### Expressions -/

/-- The rank of what needs no parentheses anywhere. -/
def Expr.tightest : Nat := 8

/-- How tightly an expression holds together. A unary operator binds more tightly than the binary
ones and more loosely than what can follow an operand. -/
def Expr.rank : Expr → Nat
  | .unary .. => Parse.unaryPrecedence + 1
  | .binary _ op _ _ => op.precedence
  | _ => Expr.tightest

mutual

/-- The tokens of an expression. The operand to the right of a binary operator has to bind more
tightly than the operator, because operators of one precedence associate to the left. -/
def Expr.kinds : Expr → List TokenKind
  | .integer _ value => [.integer value.toNat]
  | .float _ value => [.float value]
  | .string _ text => [.string text]
  | .identifier _ name => [.identifier name]
  | .unary _ op operand =>
    op.kind :: grouped (operand.rank < Parse.unaryPrecedence + 1) operand.kinds
  | .binary _ op left right =>
    grouped (left.rank < op.precedence) left.kinds ++
      op.kind :: grouped (right.rank < op.precedence + 1) right.kinds
  | .call _ callee args =>
    .identifier callee :: .lparen :: (commas (Expr.kindsAll args) ++ [.rparen])
  | .member _ base name =>
    grouped (base.rank < Expr.tightest) base.kinds ++ [.dot, .identifier name]
  | .index _ base position =>
    grouped (base.rank < Expr.tightest) base.kinds ++
      .lbracket :: (position.kinds ++ [.rbracket])
  | .array _ items => .lbracket :: (commas (Expr.kindsAll items) ++ [.rbracket])
  | .tuple _ items => .lparen :: (elements (Expr.kindsAll items) ++ [.rparen])

/-- The tokens of each of some expressions. -/
def Expr.kindsAll : List Expr → List (List TokenKind)
  | [] => []
  | e :: es => e.kinds :: Expr.kindsAll es

end

/-- The tokens of an expression in a place that asks for a rank. -/
def Expr.kindsAt (least : Nat) (e : Expr) : List TokenKind :=
  grouped (e.rank < least) e.kinds

/-! ### Statements -/

/-- The tokens of a function from its `func` on and up to its body. -/
def FunctionHeader.signature (header : FunctionHeader) : List TokenKind :=
  .kwFunc :: .identifier header.name :: .lparen :: (commas (header.params.map Field.kinds) ++
    .rparen :: announced .arrow TypeName.kinds header.returnType)

/-- The tokens of a function up to its body. -/
def FunctionHeader.kinds (header : FunctionHeader) : List TokenKind :=
  if header.exported then .kwExport :: header.signature else header.signature

def StructDecl.kinds (decl : StructDecl) : List TokenKind :=
  .kwStruct :: .identifier decl.name :: braced (commas (decl.fields.map Field.kinds))

mutual

/-- The tokens of a statement, without a semicolon after it. -/
def Stmt.kinds : Stmt → List TokenKind
  | .declare _ mutable bindings value =>
    (if mutable then .kwVar else .kwLet) ::
      (commas (bindings.map Binding.kinds) ++ announced .assign Expr.kinds value)
  | .function _ header body => header.kinds ++ braced (Stmt.kindsAll body)
  | .struct _ decl => decl.kinds
  | .ret _ none => [.kwReturn]
  | .ret _ (some value) => .kwReturn :: value.kinds
  | .assign _ target value => target.kinds ++ .assign :: value.kinds
  | .conditional _ condition body none =>
    .kwIf :: (condition.kinds ++ braced (Stmt.kindsAll body))
  | .conditional _ condition body (some alternate) =>
    .kwIf :: (condition.kinds ++ braced (Stmt.kindsAll body) ++ .kwElse :: alternate.kinds)
  | .whileLoop _ condition body =>
    .kwWhile :: (condition.kinds ++ braced (Stmt.kindsAll body))
  | .print _ value => .kwPrint :: value.kinds
  | .expression _ value => value.kinds
  | .block _ body => braced (Stmt.kindsAll body)

/-- The tokens of some statements, each with a semicolon after it. -/
def Stmt.kindsAll : List Stmt → List TokenKind
  | [] => []
  | s :: ss => s.kinds ++ .semicolon :: Stmt.kindsAll ss

end

/-- The tokens of a program. -/
def Program.kinds (program : Program) : List TokenKind :=
  Stmt.kindsAll program.statements

/-- The text of some tokens. -/
def TokenKind.render (kinds : List TokenKind) : List Char :=
  kinds.flatMap fun kind => kind.written.toList ++ [' ']

/-- The text of a program. -/
def Program.render (program : Program) : String :=
  String.ofList (TokenKind.render program.kinds)

/-! ### What can be written -/

/-- Whether a word is a name. -/
def isName (word : String) : Bool :=
  word.toList.head?.any isWordStart && word.toList.all isWordChar &&
    (TokenKind.keywords.lookup word).isNone

/-- Whether a text can stand between quotes. -/
def isQuotable (text : String) : Bool :=
  text.toList.all (· ≠ '\'')

mutual

/-- Whether an annotation can be written: tuples have elements. -/
def TypeName.isWritable : TypeName → Bool
  | .named name => isName name
  | .array element => element.isWritable
  | .tuple types => !types.isEmpty && TypeName.allWritable types

def TypeName.allWritable : List TypeName → Bool
  | [] => true
  | t :: ts => t.isWritable && TypeName.allWritable ts

end

def Field.isWritable (f : Field) : Bool :=
  isName f.name && f.type.isWritable

/-- Whether a binding can be written: no text gives the type that the checker finds. -/
def Binding.isWritable (b : Binding) : Bool :=
  isName b.name && b.declared.all TypeName.isWritable && b.resolved.isNone

mutual

/-- Whether an expression can be written: its literals have a spelling, none is a float, and
tuples have elements. -/
def Expr.isWritable : Expr → Bool
  | .integer _ value => 0 ≤ value && value ≤ maxInteger
  | .float .. => false
  | .string _ text => isQuotable text
  | .identifier _ name => isName name
  | .unary _ _ operand => operand.isWritable
  | .binary _ _ left right => left.isWritable && right.isWritable
  | .call _ callee args => isName callee && Expr.allWritable args
  | .member _ base name => base.isWritable && isName name
  | .index _ base position => base.isWritable && position.isWritable
  | .array _ items => Expr.allWritable items
  | .tuple _ items => !items.isEmpty && Expr.allWritable items

def Expr.allWritable : List Expr → Bool
  | [] => true
  | e :: es => e.isWritable && Expr.allWritable es

end

def FunctionHeader.isWritable (header : FunctionHeader) : Bool :=
  isName header.name && header.params.all Field.isWritable &&
    header.returnType.all TypeName.isWritable

def StructDecl.isWritable (decl : StructDecl) : Bool :=
  isName decl.name && decl.fields.all Field.isWritable

mutual

/-- Whether a statement can be written: declarations name something, assignments have a target
that can be assigned to, and what follows an `else` is a conditional or a block. -/
def Stmt.isWritable : Stmt → Bool
  | .declare _ _ bindings value =>
    !bindings.isEmpty && bindings.all Binding.isWritable && value.all Expr.isWritable
  | .function _ header body => header.isWritable && Stmt.allWritable body
  | .struct _ decl => decl.isWritable
  | .ret _ value => value.all Expr.isWritable
  | .assign _ target value => Parse.isTarget target && target.isWritable && value.isWritable
  | .conditional _ condition body none => condition.isWritable && Stmt.allWritable body
  | .conditional _ condition body (some alternate) =>
    condition.isWritable && Stmt.allWritable body && alternate.isAlternate && alternate.isWritable
  | .whileLoop _ condition body => condition.isWritable && Stmt.allWritable body
  | .print _ value => value.isWritable
  | .expression _ value => value.isWritable
  | .block _ body => Stmt.allWritable body

def Stmt.allWritable : List Stmt → Bool
  | [] => true
  | s :: ss => s.isWritable && Stmt.allWritable ss

end

/-- Whether a program can be written. -/
def Program.isWritable (program : Program) : Bool :=
  Stmt.allWritable program.statements

/-! ### Programs up to locations -/

mutual

/-- An expression without the places of its parts. -/
def Expr.unlocated : Expr → Expr
  | .integer _ value => .integer default value
  | .float _ value => .float default value
  | .string _ text => .string default text
  | .identifier _ name => .identifier default name
  | .unary _ op operand => .unary default op operand.unlocated
  | .binary _ op left right => .binary default op left.unlocated right.unlocated
  | .call _ callee args => .call default callee (Expr.unlocatedAll args)
  | .member _ base name => .member default base.unlocated name
  | .index _ base position => .index default base.unlocated position.unlocated
  | .array _ items => .array default (Expr.unlocatedAll items)
  | .tuple _ items => .tuple default (Expr.unlocatedAll items)

def Expr.unlocatedAll : List Expr → List Expr
  | [] => []
  | e :: es => e.unlocated :: Expr.unlocatedAll es

end

def Field.unlocated (f : Field) : Field :=
  { f with location := default }

def Binding.unlocated (b : Binding) : Binding :=
  { b with location := default }

def FunctionHeader.unlocated (header : FunctionHeader) : FunctionHeader :=
  { header with params := header.params.map Field.unlocated }

def StructDecl.unlocated (decl : StructDecl) : StructDecl :=
  { decl with fields := decl.fields.map Field.unlocated }

mutual

/-- A statement without the places of its parts. -/
def Stmt.unlocated : Stmt → Stmt
  | .declare _ mutable bindings value =>
    .declare default mutable (bindings.map Binding.unlocated) (value.map Expr.unlocated)
  | .function _ header body => .function default header.unlocated (Stmt.unlocatedAll body)
  | .struct _ decl => .struct default decl.unlocated
  | .ret _ value => .ret default (value.map Expr.unlocated)
  | .assign _ target value => .assign default target.unlocated value.unlocated
  | .conditional _ condition body none =>
    .conditional default condition.unlocated (Stmt.unlocatedAll body) none
  | .conditional _ condition body (some alternate) =>
    .conditional default condition.unlocated (Stmt.unlocatedAll body) (some alternate.unlocated)
  | .whileLoop _ condition body =>
    .whileLoop default condition.unlocated (Stmt.unlocatedAll body)
  | .print _ value => .print default value.unlocated
  | .expression _ value => .expression default value.unlocated
  | .block _ body => .block default (Stmt.unlocatedAll body)

def Stmt.unlocatedAll : List Stmt → List Stmt
  | [] => []
  | s :: ss => s.unlocated :: Stmt.unlocatedAll ss

end

/-- A program without the places of its parts. -/
def Program.unlocated (program : Program) : Program :=
  ⟨Stmt.unlocatedAll program.statements⟩

/-! ### Lists of parts -/

/-- The tokens of a list of annotations, one list for each. -/
theorem TypeName.kindsAll_eq_map (ts : List TypeName) :
    TypeName.kindsAll ts = ts.map TypeName.kinds := by
  induction ts with
  | nil => rfl
  | cons t ts ih => rw [TypeName.kindsAll, ih, List.map_cons]

/-- The tokens of a list of expressions, one list for each. -/
theorem Expr.kindsAll_eq_map (es : List Expr) : Expr.kindsAll es = es.map Expr.kinds := by
  induction es with
  | nil => rfl
  | cons e es ih => rw [Expr.kindsAll, ih, List.map_cons]

/-- The places in a list of expressions are forgotten member by member. -/
theorem Expr.unlocatedAll_eq_map (es : List Expr) :
    Expr.unlocatedAll es = es.map Expr.unlocated := by
  induction es with
  | nil => rfl
  | cons e es ih => rw [Expr.unlocatedAll, ih, List.map_cons]

/-- The places in a list of statements are forgotten member by member. -/
theorem Stmt.unlocatedAll_eq_map (ss : List Stmt) :
    Stmt.unlocatedAll ss = ss.map Stmt.unlocated := by
  induction ss with
  | nil => rfl
  | cons s ss ih => rw [Stmt.unlocatedAll, ih, List.map_cons]

end WasmCompiler
