/-!
# Machine value types

The two value types that compiled programs use.
-/

namespace WasmCompiler.Wasm

/-- The type of a value on the stack or in a local. -/
inductive ValueType where
  | i32
  | f32
deriving DecidableEq, Repr, Inhabited

/-- The type's name in instruction listings. -/
def ValueType.name : ValueType → String
  | .i32 => "i32"
  | .f32 => "f32"

/-- Parameters and results of a function. -/
structure FuncType where
  params : List ValueType
  results : List ValueType
deriving DecidableEq, Repr, Inhabited

end WasmCompiler.Wasm
