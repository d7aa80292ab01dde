import WasmCompiler.Lowering.Program
import WasmCompiler.Proofs.Tree.Parts
import WasmCompiler.Proofs.Typing.Tables

/-!
# The code of expressions and statements

Which code belongs to which expression of which type, as a relation with one rule for each form.
A derivation has all that a proof about the code needs: the types of the parts, the variables and
functions that names stand for, and that what is stored fits its cell. That the code is valid and
that it computes what the expression means are proved by induction over derivations, and neither
looks at the checker or at the lowering.

* `ExprCode c s e type code s'`: in the context `c`, with the scratch locals `s` handed out before
  and `s'` after, `code` leaves a value of `type` on the stack. An array literal without items has
  code of every array type; where only the expression itself can tell its type, it is not one.
* `StmtCode f result t s stmt code t' s'`: the same for a statement of a function that gives
  `result`; `t` and `t'` are the symbol tables before and after it.
-/

namespace WasmCompiler

open Wasm (Instr ValueType)

/-- The number of the function that a call names, if there is one. -/
def LoweringContext.index? (c : LoweringContext) (callee : String) : Option Nat :=
  if callee = printName then some printIndex
  else if callee = printStringName then some printStringIndex
  else c.indices.lookup callee

namespace Lowering

/-! ### Expressions

One rule for each form, and for an index one more for each kind of base. -/

mutual

/-- Code of an expression of a type. -/
inductive ExprCode (c : LoweringContext) :
    List ValueType → Expr → DataType → List Instr → List ValueType → Prop
  | integer {s location} {value : Int} (hmin : 0 ≤ value) (hmax : value ≤ maxInteger) :
    ExprCode c s (.integer location value) .i32 [.i32Const (Int32.ofInt value).toUInt32] s
  | float {s location value} :
    ExprCode c s (.float location value) .f64 [.f32Const (.ofDouble value)] s
  | string {s location text offset} (hoffset : c.symbols.stringOffset? text = some offset) :
    ExprCode c s (.string location text) .string [.i32Const (.ofNat offset)] s
  | variable {s location name var} (hvar : c.symbols.lookupVariable? name = some var) :
    ExprCode c s (.identifier location name) var.type (getSlots var.slot var.type.width) s
  | negate {s s' location operand type code} (hnumeric : type.isNumeric)
    (hoperand : ExprCode c s operand type code s') :
    ExprCode c s (.unary location .negate operand) type (code ++ negateCode type) s'
  | and {s s₁ s' location left right l r} (hleft : ExprCode c s left .i32 l s₁)
    (hright : ExprCode c s₁ right .i32 r s') :
    ExprCode c s (.binary location .and left right) .i32 (andCode l r) s'
  | or {s s₁ s' location left right l r} (hleft : ExprCode c s left .i32 l s₁)
    (hright : ExprCode c s₁ right .i32 r s') :
    ExprCode c s (.binary location .or left right) .i32 (orCode l r) s'
  | operator {s s₁ s' location op left right tl tr type l r} (hop : op.isLogical = false)
    (hresult : op.result? tl tr = some type) (hl : tl.Storable) (hr : tr.Storable)
    (hleft : ExprCode c s left tl l s₁) (hright : ExprCode c s₁ right tr r s') :
    ExprCode c s (.binary location op left right) type (arithmeticCode op ⟨l, tl⟩ ⟨r, tr⟩) s'
  | call {s s' location callee args signature index code}
    (hcallee : c.symbols.callable? callee = some signature) (hindex : c.index? callee = some index)
    (hargs : ExprsCode c s args signature.params code s') :
    ExprCode c s (.call location callee args) signature.result (code ++ [.call index]) s'
  | field {s s' location base name struct fields i type code}
    (hfield : DataType.lookupField name fields = some (i, type)) (htype : type.Storable)
    (hbase : ExprCode c s base (.struct struct fields) code s') :
    ExprCode c s (.member location base name) type (code ++ [loadCell type i]) s'
  | element {s s₁ s' location base index type b i} (htype : type.Storable)
    (hknown : base.isEmptyArray = false)
    (hbase : ExprCode c s base (.array type) b s₁) (hindex : ExprCode c s₁ index .i32 i s') :
    ExprCode c s (.index location base index) type (b ++ i ++ elementCode type) s'
  /-- An element of a tuple variable is read from its slots. -/
  | component {s location l name var elements index i type}
    (hvar : c.symbols.lookupVariable? name = some var) (htuple : var.type = .tuple elements)
    (hindex : index.elementIndex? elements.length = some i) (htype : elements[i]? = some type) :
    ExprCode c s (.index location (.identifier l name) index) type
      (getSlots (var.slot + elementStart elements i) type.width) s
  /-- Any other tuple is put into scratch locals first. -/
  | spilled {s s' location base elements index i type code}
    (hindex : index.elementIndex? elements.length = some i) (htype : elements[i]? = some type)
    (hbase : ExprCode c s base (.tuple elements) code s') :
    ExprCode c s (.index location base index) type
      (code ++ (setSlots (c.scratchBase + s'.length) (DataType.machineTypesAll elements).length ++
        getSlots (c.scratchBase + s'.length + elementStart elements i) type.width))
      (s' ++ DataType.machineTypesAll elements)
  | emptyArray {s location element} :
    ExprCode c s (.array location []) (.array element)
      (arrayHeader c (c.scratchBase + s.length) 0 ++ [.localGet (c.scratchBase + s.length)])
      (s ++ [.i32])
  | array {s s' location item items element code} (helement : element.Storable)
    (hknown : item.isEmptyArray = false)
    (hitems : ItemsCode c (c.scratchBase + s.length) 1 element (s ++ [.i32]) (item :: items) code
      s') :
    ExprCode c s (.array location (item :: items)) (.array element)
      (arrayHeader c (c.scratchBase + s.length) (item :: items).length ++ code ++
        [.localGet (c.scratchBase + s.length)]) s'
  | tuple {s s' location items types code} (hknown : ∀ item ∈ items, item.isEmptyArray = false)
    (hitems : ExprsCode c s items types code s') :
    ExprCode c s (.tuple location items) (.tuple types) code s'

/-- Code of several expressions, whose values are left side by side. -/
inductive ExprsCode (c : LoweringContext) :
    List ValueType → List Expr → List DataType → List Instr → List ValueType → Prop
  | nil {s} : ExprsCode c s [] [] [] s
  | cons {s s₁ s' e es type types code rest} (he : ExprCode c s e type code s₁)
    (hes : ExprsCode c s₁ es types rest s') :
    ExprsCode c s (e :: es) (type :: types) (code ++ rest) s'

/-- Code that stores the items of an array into the cells of the block in a local. -/
inductive ItemsCode (c : LoweringContext) :
    Nat → Nat → DataType → List ValueType → List Expr → List Instr → List ValueType → Prop
  | nil {base cell element s} : ItemsCode c base cell element s [] [] s
  | cons {base cell element s s₁ s' e es code rest} (he : ExprCode c s e element code s₁)
    (hes : ItemsCode c base (cell + 1) element s₁ es rest s') :
    ItemsCode c base cell element s (e :: es)
      (.localGet base :: code ++ storeCell element cell :: rest) s'

end

/-! ### Scratch locals

Lowering only ever adds to them. -/

mutual

/-- Scratch locals are handed out after those before them. -/
theorem ExprCode.scratch_grows {c : LoweringContext} {s s' : List ValueType} {e : Expr}
    {type : DataType} {code : List Instr} : ExprCode c s e type code s' → s <+: s'
  | .integer .. | .float | .string _ | .variable _ | .component .. => List.prefix_refl _
  | .negate _ hoperand => hoperand.scratch_grows
  | .and hleft hright | .or hleft hright | .operator _ _ _ _ hleft hright =>
    hleft.scratch_grows.trans hright.scratch_grows
  | .call _ _ hargs => hargs.scratch_grows
  | .field _ _ hbase => hbase.scratch_grows
  | .element _ _ hbase hindex => hbase.scratch_grows.trans hindex.scratch_grows
  | .spilled _ _ hbase => hbase.scratch_grows.trans (List.prefix_append _ _)
  | .emptyArray => List.prefix_append _ _
  | .array _ _ hitems => (List.prefix_append _ _).trans hitems.scratch_grows
  | .tuple _ hitems => hitems.scratch_grows

theorem ExprsCode.scratch_grows {c : LoweringContext} {s s' : List ValueType} {es : List Expr}
    {types : List DataType} {code : List Instr} : ExprsCode c s es types code s' → s <+: s'
  | .nil => List.prefix_refl _
  | .cons he hes => he.scratch_grows.trans hes.scratch_grows

theorem ItemsCode.scratch_grows {c : LoweringContext} {base cell : Nat} {element : DataType}
    {s s' : List ValueType} {es : List Expr} {code : List Instr} :
    ItemsCode c base cell element s es code s' → s <+: s'
  | .nil => List.prefix_refl _
  | .cons he hes => he.scratch_grows.trans hes.scratch_grows

end

/-! ### Statements

The rules for statements have the symbol tables before and after. -/

/-- The variable that a binding of a type becomes in a table. -/
def declaredVariable (t : SymbolTable) (name : String) (type : DataType) : Variable :=
  ⟨name, type, t.nextSlot, .declaration⟩

/-- The names of a declaration become variables, in order. -/
inductive Declares : SymbolTable → List Binding → List Variable → SymbolTable → Prop
  | nil {t} : Declares t [] [] t
  | cons {t t' b bs vars type} (htype : b.resolved = some type) (hopen : t.scopes ≠ [])
    (hnew : SymbolTable.findIn b.name (t.scopes.headD []) = none)
    (hbs : Declares (t.withVariable (declaredVariable t b.name type)) bs vars t') :
    Declares t (b :: bs) (declaredVariable t b.name type :: vars) t'

mutual

/-- Code of a statement of a function that gives `result`. -/
inductive StmtCode (f : FunctionContext) (result : DataType) :
    SymbolTable → List ValueType → Stmt → List Instr → SymbolTable → List ValueType → Prop
  | declare {t t' s location isMutable bindings vars} (hbindings : Declares t bindings vars t') :
    StmtCode f result t s (.declare location isMutable bindings none) (vars.flatMap zeroSlots) t' s
  /-- The value has as many machine values as each variable, of the same types. -/
  | initial {t t' s s' location isMutable bindings value type first others code}
    (hvalue : ExprCode (f.withSymbols t) s value type code s')
    (hbindings : Declares t bindings (first :: others) t')
    (htypes : ∀ var ∈ first :: others, var.type.machineTypes = type.machineTypes) :
    StmtCode f result t s (.declare location isMutable bindings (some value))
      (code ++ initialCode first others) t' s'
  | leave {t s location} (hresult : result.isNone) :
    StmtCode f result t s (.ret location none) [.ret] t s
  | giveBack {t s s' location value code}
    (hvalue : ExprCode (f.withSymbols t) s value result code s') :
    StmtCode f result t s (.ret location (some value)) (code ++ [.ret]) t s'
  | assign {t s s' location l name value var code}
    (hvar : t.lookupVariable? name = some var)
    (hvalue : ExprCode (f.withSymbols t) s value var.type code s') :
    StmtCode f result t s (.assign location (.identifier l name) value)
      (code ++ setSlots var.slot var.type.width) t s'
  | setField {t s s₁ s' location l base name value struct fields i type b code}
    (hfield : DataType.lookupField name fields = some (i, type)) (htype : type.Storable)
    (hbase : ExprCode (f.withSymbols t) s base (.struct struct fields) b s₁)
    (hvalue : ExprCode (f.withSymbols t) s₁ value type code s') :
    StmtCode f result t s (.assign location (.member l base name) value)
      (b ++ code ++ [storeCell type i]) t s'
  | when {t t' s s₁ s' location condition body b code}
    (hcondition : ExprCode (f.withSymbols t) s condition .i32 b s₁)
    (hbody : StmtsCode f result t.enterScope s₁ body code t' s') :
    StmtCode f result t s (.conditional location condition body none)
      (b ++ [.branch none code none]) t'.exitScope s'
  | choose {t t₁ t' s s₁ s₂ s' location condition body alternate b code other}
    (hshape : alternate.isAlternate)
    (hcondition : ExprCode (f.withSymbols t) s condition .i32 b s₁)
    (hbody : StmtsCode f result t.enterScope s₁ body code t₁ s₂)
    (halternate : StmtCode f result t₁.exitScope s₂ alternate other t' s') :
    StmtCode f result t s (.conditional location condition body (some alternate))
      (b ++ [.branch none code (some other)]) t' s'
  | loop {t t' s s₁ s' location condition body b code}
    (hcondition : ExprCode (f.withSymbols t) s condition .i32 b s₁)
    (hbody : StmtsCode f result t.enterScope s₁ body code t' s') :
    StmtCode f result t s (.whileLoop location condition body) (loopCode b code) t'.exitScope s'
  | print {t s s' location value type code} (htype : type = .i32 ∨ type = .string)
    (hvalue : ExprCode (f.withSymbols t) s value type code s') :
    StmtCode f result t s (.print location value) (code ++ [printCode type]) t s'
  | evaluate {t s s' location value type code}
    (hvalue : ExprCode (f.withSymbols t) s value type code s') :
    StmtCode f result t s (.expression location value) (code ++ List.replicate type.width .drop) t
      s'
  | block {t t' s s' location body code}
    (hbody : StmtsCode f result t.enterScope s body code t' s') :
    StmtCode f result t s (.block location body) code t'.exitScope s'

/-- Code of statements one after the other. -/
inductive StmtsCode (f : FunctionContext) (result : DataType) :
    SymbolTable → List ValueType → List Stmt → List Instr → SymbolTable → List ValueType → Prop
  | nil {t s} : StmtsCode f result t s [] [] t s
  | cons {t t₁ t' s s₁ s' stmt stmts code rest} (hstmt : StmtCode f result t s stmt code t₁ s₁)
    (hstmts : StmtsCode f result t₁ s₁ stmts rest t' s') :
    StmtsCode f result t s (stmt :: stmts) (code ++ rest) t' s'

end

end Lowering

end WasmCompiler
