import WasmCompiler.Number.Text
import WasmCompiler.Text.Document
import WasmCompiler.Tree.Basic

/-!
# Syntax trees as documents

Every part of a tree is a record of its kind and its place. How floats are shown is left to the
caller.
-/

namespace WasmCompiler

open Number (Double)
open Text (Document)
open Text.Document (tagged)

def Location.document (l : Location) : Document :=
  .record [("line", .integer l.line), ("column", .integer l.column)]

/-- What is absent is shown as null. -/
def optional {α : Type} (render : α → Document) : Option α → Document
  | none => .null
  | some a => render a

/-! ### Types -/

def Primitive.document : Primitive → Document
  | .i32 => .string "I32"
  | .f64 => .string "F64"
  | .string => .string "String"
  | .none => .string "None"

namespace DataType

mutual

def document : DataType → Document
  | .primitive p => tagged "Primitive" p.document
  | .struct name fields =>
    tagged "Struct" (.list [.string name, .list (documentFields fields)])
  | .array element => tagged "Array" (document element)
  | .tuple elements => tagged "Tuple" (.list (documentAll elements))

def documentAll : List DataType → List Document
  | [] => []
  | t :: ts => document t :: documentAll ts

def documentFields : List (String × DataType) → List Document
  | [] => []
  | (name, t) :: rest => .list [.string name, document t] :: documentFields rest

end

end DataType

namespace TypeName

mutual

def document : TypeName → Document
  | .named name => tagged "Named" (.string name)
  | .array element => tagged "Array" (document element)
  | .tuple elements => tagged "Tuple" (.list (documentAll elements))

def documentAll : List TypeName → List Document
  | [] => []
  | t :: ts => document t :: documentAll ts

end

end TypeName

def Field.document (f : Field) : Document :=
  .record
    [("name", .string f.name), ("ty", f.type.document), ("location", f.location.document)]

def Binding.document (b : Binding) : Document :=
  .record
    [("name", .string b.name), ("declared", optional TypeName.document b.declared),
     ("resolved", optional DataType.document b.resolved), ("location", b.location.document)]

/-! ### Expressions -/

def UnaryOp.document : UnaryOp → Document
  | .negate => .string "Negate"
  | .not => .string "Not"

def BinaryOp.document : BinaryOp → Document
  | .add => .string "Add"
  | .sub => .string "Sub"
  | .mul => .string "Mul"
  | .div => .string "Div"
  | .eq => .string "Eq"
  | .ne => .string "Neq"
  | .lt => .string "Lt"
  | .gt => .string "Gt"
  | .le => .string "Le"
  | .ge => .string "Ge"
  | .and => .string "And"
  | .or => .string "Or"

/-- A part of a tree of a kind, with its place. -/
def located (kind : String) (content : Document) (location : Location) : Document :=
  .record [("kind", tagged kind content), ("location", location.document)]

namespace Expr

mutual

def document (float : Double → Document) : Expr → Document
  | .integer l value => located "Integer" (.integer value) l
  | .float l value => located "Float" (float value) l
  | .string l text => located "Str" (.string text) l
  | .identifier l name => located "Identifier" (.string name) l
  | .unary l op operand =>
    located "Unary" (.record [("op", op.document), ("operand", document float operand)]) l
  | .binary l op left right =>
    located "Binary"
      (.record
        [("left", document float left), ("op", op.document), ("right", document float right)]) l
  | .call l callee args =>
    located "Call"
      (.record [("callee", .string callee), ("args", .list (documentAll float args))]) l
  | .member l base name =>
    located "Member" (.record [("base", document float base), ("member", .string name)]) l
  | .index l base i =>
    located "Index" (.record [("base", document float base), ("index", document float i)]) l
  | .array l items => located "Array" (.list (documentAll float items)) l
  | .tuple l items => located "Tuple" (.list (documentAll float items)) l

def documentAll (float : Double → Document) : List Expr → List Document
  | [] => []
  | e :: es => document float e :: documentAll float es

end

end Expr

/-! ### Statements -/

namespace Stmt

mutual

def document (float : Double → Document) : Stmt → Document
  | .declare l isMutable bindings value =>
    located "Let"
      (.record
        [("mutable", .bool isMutable), ("specs", .list (bindings.map Binding.document)),
         ("value", optional (Expr.document float) value)]) l
  | .function l header body =>
    located "Function"
      (.record
        [("name", .string header.name), ("params", .list (header.params.map Field.document)),
         ("return_type", optional TypeName.document header.returnType),
         ("body", .list (documentAll float body)), ("exported", .bool header.exported)]) l
  | .struct l decl =>
    located "Struct"
      (.record [("name", .string decl.name), ("fields", .list (decl.fields.map Field.document))])
      l
  | .ret l value => located "Return" (optional (Expr.document float) value) l
  | .assign l target value =>
    located "Assignment"
      (.record [("target", target.document float), ("value", value.document float)]) l
  | .conditional l condition body none =>
    located "If"
      (.record
        [("condition", condition.document float), ("body", .list (documentAll float body)),
         ("alternate", .null)]) l
  | .conditional l condition body (some alternate) =>
    located "If"
      (.record
        [("condition", condition.document float), ("body", .list (documentAll float body)),
         ("alternate", document float alternate)]) l
  | .whileLoop l condition body =>
    located "While"
      (.record
        [("condition", condition.document float), ("body", .list (documentAll float body))]) l
  | .print l value => located "Print" (value.document float) l
  | .expression l value => located "Expression" (value.document float) l
  | .block l body => located "Block" (.list (documentAll float body)) l

def documentAll (float : Double → Document) : List Stmt → List Document
  | [] => []
  | s :: ss => document float s :: documentAll float ss

end

end Stmt

def Program.document (float : Double → Document) (p : Program) : Document :=
  .record [("statements", .list (Stmt.documentAll float p.statements))]

/-- A float as a number of JSON, which has none for the infinities. -/
def floatDocument (x : Double) : Document :=
  match x.document? with
  | some digits => .decimal digits
  | none => .null

end WasmCompiler
