import WasmCompiler.DataType
import WasmCompiler.Number.Format
import WasmCompiler.Source.Location

/-!
# Syntax trees

What a source text says, with the place of each part. Names are not resolved here and types are
as they were written; the checker fills in the type of each binding (`Binding.resolved`).
-/

namespace WasmCompiler

open Number (Double)

/-! ### Type annotations -/

/-- A type as it is written. -/
inductive TypeName where
  | named (name : String)
  | array (element : TypeName)
  | tuple (elements : List TypeName)
deriving Inhabited, Repr

namespace TypeName

mutual

/-- The annotation as messages write it. -/
def display : TypeName → String
  | .named name => name
  | .array element => "[" ++ display element ++ "]"
  | .tuple elements => "(" ++ ", ".intercalate (displayAll elements) ++ ")"

/-- The annotations of a list as messages write them. -/
def displayAll : List TypeName → List String
  | [] => []
  | t :: ts => display t :: displayAll ts

end

instance : ToString TypeName := ⟨display⟩

end TypeName

/-- A name with its type: a parameter or a struct field. -/
structure Field where
  name : String
  type : TypeName
  location : Location
deriving Inhabited, Repr

/-- One name that a declaration introduces. -/
structure Binding where
  name : String
  declared : Option TypeName
  /-- The type that the checker found. -/
  resolved : Option DataType
  location : Location
deriving Inhabited, Repr

/-! ### Operators -/

inductive UnaryOp where
  | negate
  | not
deriving DecidableEq, Repr, Inhabited

inductive BinaryOp where
  | add
  | sub
  | mul
  | div
  | eq
  | ne
  | lt
  | gt
  | le
  | ge
  | and
  | or
deriving DecidableEq, Repr, Inhabited

namespace BinaryOp

def isArithmetic : BinaryOp → Bool
  | .add | .sub | .mul | .div => true
  | _ => false

def isComparison : BinaryOp → Bool
  | .eq | .ne | .lt | .gt | .le | .ge => true
  | _ => false

def isLogical : BinaryOp → Bool
  | .and | .or => true
  | _ => false

/-- The operator as it is written. -/
def symbol : BinaryOp → String
  | .add => "+"
  | .sub => "-"
  | .mul => "*"
  | .div => "/"
  | .eq => "=="
  | .ne => "!="
  | .lt => "<"
  | .gt => ">"
  | .le => "<="
  | .ge => ">="
  | .and => "&&"
  | .or => "||"

end BinaryOp

/-! ### Expressions -/

inductive Expr where
  | integer (location : Location) (value : Int)
  | float (location : Location) (value : Double)
  | string (location : Location) (text : String)
  | identifier (location : Location) (name : String)
  | unary (location : Location) (op : UnaryOp) (operand : Expr)
  | binary (location : Location) (op : BinaryOp) (left right : Expr)
  | call (location : Location) (callee : String) (args : List Expr)
  | member (location : Location) (base : Expr) (name : String)
  | index (location : Location) (base index : Expr)
  | array (location : Location) (items : List Expr)
  | tuple (location : Location) (items : List Expr)
deriving Inhabited, Repr

namespace Expr

/-- Where the expression begins. -/
def location : Expr → Location
  | .integer l _ | .float l _ | .string l _ | .identifier l _ | .unary l .. | .binary l ..
  | .call l .. | .member l .. | .index l .. | .array l _ | .tuple l _ => l

/-- An array literal without items, whose element type only its use can tell. -/
def isEmptyArray : Expr → Bool
  | .array _ [] => true
  | _ => false

end Expr

/-! ### Statements -/

structure StructDecl where
  name : String
  fields : List Field
deriving Inhabited, Repr

/-- A function without its body. -/
structure FunctionHeader where
  name : String
  params : List Field
  returnType : Option TypeName
  exported : Bool
deriving Inhabited, Repr

inductive Stmt where
  /-- Introduces names that share one initial value. -/
  | declare (location : Location) (mutable : Bool) (bindings : List Binding)
      (value : Option Expr)
  | function (location : Location) (header : FunctionHeader) (body : List Stmt)
  | struct (location : Location) (decl : StructDecl)
  | ret (location : Location) (value : Option Expr)
  | assign (location : Location) (target value : Expr)
  | conditional (location : Location) (condition : Expr) (body : List Stmt)
      (alternate : Option Stmt)
  | whileLoop (location : Location) (condition : Expr) (body : List Stmt)
  | print (location : Location) (value : Expr)
  | expression (location : Location) (value : Expr)
  | block (location : Location) (body : List Stmt)
deriving Inhabited, Repr

/-- Where the statement begins. -/
def Stmt.location : Stmt → Location
  | .declare l .. | .function l .. | .struct l _ | .ret l _ | .assign l .. | .conditional l ..
  | .whileLoop l .. | .print l _ | .expression l _ | .block l _ => l

/-- A whole source text. -/
structure Program where
  statements : List Stmt
deriving Inhabited, Repr

end WasmCompiler
