import WasmCompiler.Wasm.ValueType

/-!
# Data types

The types of the source language and how values of them are laid out: a number, a string or an
address is one machine value, a tuple is the values of its elements side by side, and `none` is
no value at all. Struct fields and array elements occupy one memory cell each, so only types of
exactly one machine value can be stored.
-/

namespace WasmCompiler

open Wasm (ValueType)

/-- Bytes of one memory cell. -/
def cellSize : Nat := 4

inductive Primitive where
  | i32
  | f64
  | string
  | none
deriving DecidableEq, Repr, Inhabited

inductive DataType where
  | primitive (primitive : Primitive)
  /-- A named struct with its fields in order. -/
  | struct (name : String) (fields : List (String × DataType))
  | array (element : DataType)
  | tuple (elements : List DataType)
deriving Inhabited, Repr

namespace DataType

@[match_pattern] abbrev i32 : DataType := .primitive .i32

@[match_pattern] abbrev f64 : DataType := .primitive .f64

@[match_pattern] abbrev string : DataType := .primitive .string

@[match_pattern] abbrev none : DataType := .primitive .none

/-! ### Equality -/

mutual

/-- Types are equal if they are built alike, field names and struct names included. -/
def decEq : (s t : DataType) → Decidable (s = t)
  | .primitive p, .primitive q =>
    if h : p = q then isTrue (h ▸ rfl) else isFalse fun e => h (by injection e)
  | .struct m fs, .struct n gs =>
    if h : m = n then
      match decEqFields fs gs with
      | isTrue e => isTrue (h ▸ e ▸ rfl)
      | isFalse ne => isFalse fun e => ne (by injection e)
    else isFalse fun e => h (by injection e)
  | .array s, .array t =>
    match decEq s t with
    | isTrue e => isTrue (e ▸ rfl)
    | isFalse ne => isFalse fun e => ne (by injection e)
  | .tuple ss, .tuple ts =>
    match decEqAll ss ts with
    | isTrue e => isTrue (e ▸ rfl)
    | isFalse ne => isFalse fun e => ne (by injection e)
  | .primitive _, .struct .. | .primitive _, .array _ | .primitive _, .tuple _
  | .struct .., .primitive _ | .struct .., .array _ | .struct .., .tuple _
  | .array _, .primitive _ | .array _, .struct .. | .array _, .tuple _
  | .tuple _, .primitive _ | .tuple _, .struct .. | .tuple _, .array _ =>
    isFalse (by intro e; injection e)

/-- Equality of element lists. -/
def decEqAll : (ss ts : List DataType) → Decidable (ss = ts)
  | [], [] => isTrue rfl
  | s :: ss, t :: ts =>
    match decEq s t with
    | isTrue e =>
      match decEqAll ss ts with
      | isTrue es => isTrue (e ▸ es ▸ rfl)
      | isFalse ne => isFalse fun es => ne (by injection es)
    | isFalse ne => isFalse fun e => ne (by injection e)
  | [], _ :: _ | _ :: _, [] => isFalse (by intro e; injection e)

/-- Equality of field lists. -/
def decEqFields : (fs gs : List (String × DataType)) → Decidable (fs = gs)
  | [], [] => isTrue rfl
  | (m, s) :: fs, (n, t) :: gs =>
    if h : m = n then
      match decEq s t with
      | isTrue e =>
        match decEqFields fs gs with
        | isTrue es => isTrue (h ▸ e ▸ es ▸ rfl)
        | isFalse ne => isFalse fun es => ne (by injection es)
      | isFalse ne => isFalse fun e => ne (by injection e with e; injection e)
    else isFalse fun e => h (by injection e with e; injection e)
  | [], _ :: _ | _ :: _, [] => isFalse (by intro e; injection e)

end

instance : DecidableEq DataType := decEq

/-! ### Layout -/

def isNone : DataType → Bool
  | .none => true
  | _ => false

def isNumeric : DataType → Bool
  | .i32 | .f64 => true
  | _ => false

def isFloat : DataType → Bool
  | .f64 => true
  | _ => false

def isArray : DataType → Bool
  | .array _ => true
  | _ => false

mutual

/-- The machine values that a value of this type consists of, in order. -/
def machineTypes : DataType → List ValueType
  | .i32 => [.i32]
  | .f64 => [.f32]
  | .string => [.i32]
  | .none => []
  | .struct .. => [.i32]
  | .array _ => [.i32]
  | .tuple elements => machineTypesAll elements

/-- The machine values of several values side by side. -/
def machineTypesAll : List DataType → List ValueType
  | [] => []
  | t :: ts => machineTypes t ++ machineTypesAll ts

end

/-- The machine values of each type, one after the other. -/
theorem machineTypesAll_eq_flatMap (ts : List DataType) :
    machineTypesAll ts = ts.flatMap machineTypes := by
  induction ts with
  | nil => rfl
  | cons t ts ih => simp [machineTypesAll, ih]

/-- The number of local slots that a variable of this type occupies. -/
def width (t : DataType) : Nat :=
  t.machineTypes.length

/-- Whether a value of this type can be stored in one memory cell. -/
def fitsCell (t : DataType) : Bool :=
  t.width == 1

/-- Bytes of a struct with these fields. -/
def structSize (fields : List (String × DataType)) : Nat :=
  fields.length * cellSize

/-- The first field of a name, with its position. -/
def lookupField (name : String) : List (String × DataType) → Option (Nat × DataType)
  | [] => Option.none
  | (n, t) :: rest =>
    if n = name then some (0, t)
    else (lookupField name rest).map fun (i, t) => (i + 1, t)

/-- Position and type of a field, in a struct type. -/
def field? (t : DataType) (name : String) : Option (Nat × DataType) :=
  match t with
  | .struct _ fields => lookupField name fields
  | _ => Option.none

/-- The type of arithmetic on two numbers: a float if one of them is. -/
def arithmeticResult (left right : DataType) : Option DataType :=
  if left.isNumeric && right.isNumeric then
    some (if left.isFloat || right.isFloat then .f64 else .i32)
  else Option.none

/-! ### Text -/

mutual

/-- The type as messages write it; a struct is shown by its name. -/
def display : DataType → String
  | .i32 => "i32"
  | .f64 => "f64"
  | .string => "string"
  | .none => "none"
  | .struct name _ => name
  | .array element => "[" ++ display element ++ "]"
  | .tuple elements => "(" ++ ", ".intercalate (displayAll elements) ++ ")"

/-- The types of a list as messages write them. -/
def displayAll : List DataType → List String
  | [] => []
  | t :: ts => display t :: displayAll ts

end

instance : ToString DataType := ⟨display⟩

end DataType

end WasmCompiler
