import WasmCompiler.Tree.Basic

/-!
# Errors of names and types

Each error is a cause with the place where it was found; `SemanticError.message` puts it into
words.
-/

namespace WasmCompiler

/-- What an unknown name was taken for. -/
inductive Reference where
  | variable
  | function
  | type
  | field
deriving DecidableEq, Repr

def Reference.text : Reference → String
  | .variable => "variable"
  | .function => "function"
  | .type => "type"
  | .field => "field"

namespace Mismatch

/-- The part of the program whose type is wrong. -/
inductive Context where
  | arrayElementType
  | field (struct name : String)
  | parameter (name : String)
  | print
  | condition
  | initializer (name : String)
  | variable (name : String)
  | assignment (name : String)
  | fieldAssignment (name : String)
  | returned
  | argument (position : Nat) (callee : String)
  | negated
  | unaryOperator
  | operands (op : BinaryOp)
  | fieldAccess (name : String)
  | arrayIndex
  | tupleIndex
  | indexing
  | arrayElement
  | tupleElement
deriving DecidableEq, Repr

def Context.text : Context → String
  | .arrayElementType => "array element type"
  | .field struct name => "field '" ++ struct ++ "." ++ name ++ "'"
  | .parameter name => "parameter '" ++ name ++ "'"
  | .print => "print"
  | .condition => "condition"
  | .initializer name => "initializer of '" ++ name ++ "'"
  | .variable name => "variable '" ++ name ++ "'"
  | .assignment name => "assignment to '" ++ name ++ "'"
  | .fieldAssignment name => "assignment to field '" ++ name ++ "'"
  | .returned => "return"
  | .argument position callee => "argument " ++ toString position ++ " of '" ++ callee ++ "'"
  | .negated => "operand of unary '-'"
  | .unaryOperator => "unary operator"
  | .operands op => "operands of '" ++ op.symbol ++ "'"
  | .fieldAccess name => "access of field '" ++ name ++ "'"
  | .arrayIndex => "array index"
  | .tupleIndex => "tuple index"
  | .indexing => "indexing"
  | .arrayElement => "array element"
  | .tupleElement => "tuple element"

/-- What would have been right. -/
inductive Expected where
  | type (type : DataType)
  | singleValue
  | value
  | printable
  | number
  | negation
  | numbers
  | sameType
  | integers
  | struct
  | indexable
  | literalBelow (bound : Nat)
deriving Repr

def Expected.text : Expected → String
  | .type t => t.display
  | .singleValue => "a single-value type"
  | .value => "a value type"
  | .printable => "i32 or string"
  | .number => "i32 or f64"
  | .negation => "'-' on i32 or f64"
  | .numbers => "i32 or f64 operands"
  | .sameType => "operands of the same type"
  | .integers => "i32 operands"
  | .struct => "a struct"
  | .indexable => "an array or tuple"
  | .literalBelow bound => "an integer literal below " ++ toString bound

/-- What was there instead. -/
inductive Found where
  | type (type : DataType)
  | emptyArray
  | both (left right : DataType)
  | complement (type : DataType)
  | expression
deriving Repr

def Found.text : Found → String
  | .type t => t.display
  | .emptyArray => "[]"
  | .both left right => left.display ++ " and " ++ right.display
  | .complement t => "'!' on " ++ t.display
  | .expression => "an expression"

end Mismatch

/-- Why a statement may not stand where it does. -/
inductive Misplaced where
  | variableOutsideScope (name : String)
  | topLevelStatement
  | nestedFunction (name : String)
  | nestedStruct (name : String)
  | assignmentTarget
deriving DecidableEq, Repr

def Misplaced.text : Misplaced → String
  | .variableOutsideScope name => "variable '" ++ name ++ "' declared outside of any scope"
  | .topLevelStatement => "only functions and structs may appear at the top level"
  | .nestedFunction name => "function '" ++ name ++ "' must be declared at the top level"
  | .nestedStruct name => "struct '" ++ name ++ "' must be declared at the top level"
  | .assignmentTarget => "invalid assignment target"

/-- Why a program has no meaning. -/
inductive SemanticError where
  | duplicate (name : String) (location : Location)
  | undefined (what : Reference) (name : String) (location : Location)
  | mismatch (context : Mismatch.Context) (expected : Mismatch.Expected)
      (found : Mismatch.Found) (location : Location)
  | arity (callee : String) (expected found : Nat) (location : Location)
  | missingType (name : String) (location : Location)
  | misplaced (what : Misplaced) (location : Location)
deriving Repr

namespace SemanticError

/-- The place that the error names. -/
def location : SemanticError → Location
  | .duplicate _ l | .undefined _ _ l | .mismatch _ _ _ l | .arity _ _ _ l | .missingType _ l
  | .misplaced _ l => l

/-- The error in words. -/
def message : SemanticError → String
  | .duplicate name l => "Duplicate definition of '" ++ name ++ "' at " ++ l.text
  | .undefined what name l => "Undefined " ++ what.text ++ " '" ++ name ++ "' at " ++ l.text
  | .mismatch context expected found l =>
    "Type mismatch in " ++ context.text ++ ": expected " ++ expected.text ++ ", found " ++
      found.text ++ " at " ++ l.text
  | .arity callee expected found l =>
    "Function '" ++ callee ++ "' expects " ++ toString expected ++ " argument(s), got " ++
      toString found ++ " at " ++ l.text
  | .missingType name l =>
    "Cannot determine the type of '" ++ name ++ "' at " ++ l.text ++
      ": add a type or an initializer"
  | .misplaced what l => what.text ++ " at " ++ l.text

end SemanticError

end WasmCompiler
