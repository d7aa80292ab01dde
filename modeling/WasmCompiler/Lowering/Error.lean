import WasmCompiler.Text.Quoted
import WasmCompiler.Typing.Error

/-!
# Errors of lowering

Lowering a checked program may still find that something does not fit together. Such a finding is
an invariant that failed, with the place or the stage where it was noticed.
-/

namespace WasmCompiler

/-- What lowering relies on and did not find. -/
inductive Invariant where
  | unresolved (name : String)
  | allocatorPosition
  | unregisteredFunction (name : String)
  | unregisteredStruct (name : String)
  | frameSize (name : String) (found expected : Nat)
  | emptyDeclaration
  | assignmentTarget
  | nestedDeclaration
  | missingField (name : String) (type : DataType)
  | integerRange (value : Int)
  | unknownString (text : String)
  | unsupportedNot
  | notIndexable (type : DataType)
  | uncheckedOperands (left right : DataType)
  | tupleIndex
deriving Repr

def Invariant.text : Invariant → String
  | .unresolved name => "type of '" ++ name ++ "' was never resolved"
  | .allocatorPosition => "allocator index does not follow the declared functions"
  | .unregisteredFunction name => "function '" ++ name ++ "' was not registered"
  | .unregisteredStruct name => "struct '" ++ name ++ "' was not registered"
  | .frameSize name found expected =>
    "frame of '" ++ name ++ "' has " ++ toString found ++ " slots, expected " ++ toString expected
  | .emptyDeclaration => "let without bindings"
  | .assignmentTarget => "invalid assignment target"
  | .nestedDeclaration => "nested declaration"
  | .missingField name type => "no field '" ++ name ++ "' on " ++ type.display
  | .integerRange value => "integer literal " ++ toString value ++ " out of range"
  | .unknownString text => "string literal " ++ Text.quote text ++ " was not interned"
  | .unsupportedNot => "unsupported unary operator '!'"
  | .notIndexable type => "cannot index " ++ type.display
  | .uncheckedOperands left right =>
    "operands " ++ left.display ++ " and " ++ right.display ++ " were not checked"
  | .tupleIndex => "tuple index must be an in-range literal"

/-- Where a failed invariant was noticed. -/
inductive LoweringPlace where
  | source (location : Location)
  | registration
  | locals
deriving DecidableEq, Repr

def LoweringPlace.text : LoweringPlace → String
  | .source location => location.text
  | .registration => "register"
  | .locals => "locals"

/-- Why a program could not be lowered. -/
inductive LoweringError where
  | semantic (error : SemanticError)
  | invariant (what : Invariant) (place : LoweringPlace)
deriving Repr

/-- The error in words. -/
def LoweringError.message : LoweringError → String
  | .semantic error => error.message
  | .invariant what place =>
    "internal code generation error: " ++ what.text ++ " (" ++ place.text ++ ")"

end WasmCompiler
