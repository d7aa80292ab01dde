import WasmCompiler.Typing.Expr
import WasmCompiler.Wasm.Machine.Step

/-!
# What programs mean

A big-step semantics of checked programs. A value is made up of machine values: a number, a string
or an address is one, a tuple those of its elements. Structs and arrays are blocks of cells in
memory, taken from where the heap ends: one cell for each field, or the number of elements and then
a cell for each.

* Operands, arguments and items are evaluated from left to right. `&&` and `||` give 0 or 1 and look
  at their second operand only if the first does not decide.
* Integers wrap around, except that a quotient which does not exist stops the program. An integer
  beside a float is converted.
* A variable is found in the innermost scope that has it. One that is declared without a value is
  zero each time its declaration is reached; an initial value is evaluated once for all names.

A call may take any depth and a loop any number of rounds; the functions take a bound on both, and
give `Stop.endless` if it is reached.
-/

namespace WasmCompiler.Source

open Wasm (HostState Memory Trap Value)

/-! ### Values and the world -/

/-- A value, with its type. -/
structure Datum where
  type : DataType
  values : List Value

/-- The variables of the open scopes and what they hold, the innermost scope first. -/
abbrev Scopes := List (List (String × Datum))

/-- What lies outside the variables. -/
structure World where
  memory : Memory
  /-- The first free address. -/
  heap : UInt32
  host : HostState

/-- Why a program has no result. -/
inductive Stop where
  | trap (cause : Trap)
  /-- The program does not make sense, which checking rules out. -/
  | wrong
  /-- The bound on calls or rounds was reached. -/
  | endless

/-- Evaluation in a world. -/
abbrev Eval := StateT World (Except Stop)

section Eval

variable {α β : Type}

theorem bind_of_ok {m : Eval α} {f : α → Eval β} {a : α} {w w' : World} (h : m w = .ok (a, w')) :
    (m >>= f) w = f a w' := by
  show (m w).bind (fun (a, w') => f a w') = _
  rw [h]
  rfl

theorem bind_of_error {m : Eval α} {f : α → Eval β} {e : Stop} {w : World}
    (h : m w = .error e) : (m >>= f) w = .error e := by
  show (m w).bind (fun (a, w') => f a w') = _
  rw [h]
  rfl

end Eval

/-- What a program runs in. -/
structure Setting where
  /-- The program, with the types of its bindings. -/
  program : Program
  /-- What it declares. -/
  symbols : SymbolTable
  /-- Whether the host can see the memory. -/
  exportsMemory : Bool
  /-- Whether the host lets the memory have a number of pages. -/
  grantsPages : Nat → Bool

/-- What expressions and statements are evaluated with. -/
structure Interpreter where
  setting : Setting
  /-- The bound on rounds. -/
  fuel : Nat
  /-- Calls a function by its name. -/
  call : String → List Datum → Eval Datum

/-! ### Numbers -/

/-- The integer that a value consists of. -/
def Datum.word : Datum → Eval UInt32
  | ⟨_, [.i32 w]⟩ => pure w
  | _ => throw .wrong

/-- A truth value. -/
def Datum.ofBool (b : Bool) : Datum :=
  ⟨.i32, [.ofBool b]⟩

/-- Changes the sign of a number. -/
def Datum.negate : Datum → Eval Datum
  | ⟨type, [.i32 w]⟩ => pure ⟨type, [.i32 (-w)]⟩
  | ⟨type, [.f32 x]⟩ => pure ⟨type, [.f32 x.neg]⟩
  | _ => throw .wrong

/-- The signed quotient. -/
def quotient (x y : UInt32) : Except Stop UInt32 :=
  if y = 0 then .error (.trap .divideByZero)
  else if x.toInt32 = Int32.minValue ∧ y.toInt32 = -1 then .error (.trap .integerOverflow)
  else .ok (x.toInt32 / y.toInt32).toUInt32

/-- An operator on two integers. -/
def integerOperation (op : BinaryOp) (x y : UInt32) : Except Stop Datum :=
  match op with
  | .add => .ok ⟨.i32, [.i32 (x + y)]⟩
  | .sub => .ok ⟨.i32, [.i32 (x - y)]⟩
  | .mul => .ok ⟨.i32, [.i32 (x * y)]⟩
  | .div => (quotient x y).map fun w => ⟨.i32, [.i32 w]⟩
  | .eq => .ok (.ofBool (x = y))
  | .ne => .ok (.ofBool (x ≠ y))
  | .lt => .ok (.ofBool (x.toInt32 < y.toInt32))
  | .gt => .ok (.ofBool (y.toInt32 < x.toInt32))
  | .le => .ok (.ofBool (x.toInt32 ≤ y.toInt32))
  | .ge => .ok (.ofBool (y.toInt32 ≤ x.toInt32))
  | .and | .or => .error .wrong

/-- An operator on two floats. -/
def floatOperation (op : BinaryOp) (x y : Number.Single) : Except Stop Datum :=
  match op with
  | .add => .ok ⟨.f64, [.f32 (x.add y)]⟩
  | .sub => .ok ⟨.f64, [.f32 (x.sub y)]⟩
  | .mul => .ok ⟨.f64, [.f32 (x.mul y)]⟩
  | .div => .ok ⟨.f64, [.f32 (x.div y)]⟩
  | .eq => .ok (.ofBool (x.eq y))
  | .ne => .ok (.ofBool (!x.eq y))
  | .lt => .ok (.ofBool (x.lt y))
  | .gt => .ok (.ofBool (y.lt x))
  | .le => .ok (.ofBool (x.le y))
  | .ge => .ok (.ofBool (y.le x))
  | .and | .or => .error .wrong

/-- An operator on two numbers; an integer beside a float is converted. -/
def operation (op : BinaryOp) : Value → Value → Except Stop Datum
  | .i32 x, .i32 y => integerOperation op x y
  | .i32 x, .f32 y => floatOperation op (.ofInt x.toInt32.toInt) y
  | .f32 x, .i32 y => floatOperation op x (.ofInt y.toInt32.toInt)
  | .f32 x, .f32 y => floatOperation op x y

/-- An operator on two values, each of which is one machine value. -/
def operate (op : BinaryOp) : Datum → Datum → Eval Datum
  | ⟨_, [x]⟩, ⟨_, [y]⟩ => fun w => (operation op x y).map (·, w)
  | _, _ => throw .wrong

/-! ### Memory -/

/-- The word in which a value is stored. -/
def cellWord : Value → UInt32
  | .i32 w => w
  | .f32 x => x.bits

/-- Reads a cell. -/
def load (type : DataType) (address : Nat) : Eval Datum := fun w =>
  match w.memory.word? address with
  | some word => .ok (⟨type, [if type.isFloat then .f32 ⟨word⟩ else .i32 word]⟩, w)
  | none => .error (.trap .outOfBounds)

/-- Writes a word into a cell. -/
def storeWord (address : Nat) (word : UInt32) : Eval Unit := fun w =>
  match w.memory.setWord? address word with
  | some memory => .ok ((), { w with memory })
  | none => .error (.trap .outOfBounds)

/-- Writes a value into a cell. -/
def store (address : Nat) : Datum → Eval Unit
  | ⟨_, [v]⟩ => storeWord address (cellWord v)
  | _ => throw .wrong

/-- Writes values into the cells of a block, from one of them on. -/
def storeAll (block : UInt32) : (cell : Nat) → List Datum → Eval Unit
  | _, [] => pure ()
  | cell, d :: ds => do
    store (block.toNat + cell * cellSize) d
    storeAll block (cell + 1) ds

/-- The bytes of a memory, as a 32-bit number. -/
def byteCount (memory : Memory) : UInt32 :=
  UInt32.ofNat memory.pageCount <<< 16

/-- Whether one page more can be had. Numbers of pages have 32 bits, and the last one stands for
a refusal. -/
def Setting.grants (s : Setting) (pages : Nat) : Bool :=
  s.grantsPages (pages + 1) && UInt32.ofNat pages ≠ 0xffffffff

/-- Asks for pages until the memory holds everything below an address. -/
def makeRoom (s : Setting) (top : UInt32) : (fuel : Nat) → Eval Unit
  | 0 => throw .endless
  | fuel + 1 => fun w =>
    if top ≤ byteCount w.memory then .ok ((), w)
    else if s.grants w.memory.pageCount then
      makeRoom s top fuel { w with memory := w.memory.grow 1 }
    else .error (.trap .unreachable)

/-- Takes a new block from the heap. -/
def reserve (s : Setting) (fuel : Nat) (size : UInt32) : Eval UInt32 := fun w => do
  let top := w.heap + size
  let (_, w') ← makeRoom s top fuel { w with heap := top }
  .ok (w.heap, w')

/-! ### The host -/

/-- Prints an integer, or the string at an address. -/
def print (s : Setting) (type : DataType) (word : UInt32) : Eval Unit := fun w =>
  let host :=
    if type = .string then
      w.host.printString (if s.exportsMemory then some w.memory else none) word.toNat
    else w.host.line (toString word.toInt32.toInt)
  .ok ((), { w with host })

/-! ### Variables -/

/-- What a variable holds. -/
def lookup (name : String) (scopes : Scopes) : Option Datum :=
  scopes.findSome? (List.lookup name)

/-- Gives new machine values to a variable of a scope, if it has the variable. -/
def assignIn (name : String) (values : List Value) :
    List (String × Datum) → Option (List (String × Datum))
  | [] => none
  | (n, d) :: rest =>
    if n = name then some ((n, { d with values }) :: rest)
    else (assignIn name values rest).map ((n, d) :: ·)

/-- Gives new machine values to the variable that a name stands for. -/
def assign (name : String) (values : List Value) : Scopes → Option Scopes
  | [] => none
  | scope :: outer =>
    match assignIn name values scope with
    | some scope => some (scope :: outer)
    | none => (assign name values outer).map (scope :: ·)

/-- Adds the names of a declaration to the innermost scope. They share a value, or are zero. -/
def bind (value : Option (List Value)) : List Binding → Scopes → Eval Scopes
  | [], scopes => pure scopes
  | b :: bs, scope :: outer =>
    match b.resolved with
    | some type =>
      let values := value.getD (type.machineTypes.map .zero)
      bind value bs (((b.name, ⟨type, values⟩) :: scope) :: outer)
    | none => throw .wrong
  | _ :: _, [] => throw .wrong

/-! ### Expressions -/

/-- The element of a tuple. -/
def element (elements : List DataType) (values : List Value) (i : Nat) : Eval Datum :=
  match elements[i]? with
  | some type =>
    let start := (DataType.machineTypesAll (elements.take i)).length
    pure ⟨type, (values.drop start).take type.width⟩
  | none => throw .wrong

/-- The address of an element of an array; its first cell holds the number of elements. -/
def elementAddress (array index : UInt32) : Nat :=
  (array + index * .ofNat cellSize).toNat + cellSize

mutual

/-- Evaluates an expression. -/
def evalExpr (x : Interpreter) (scopes : Scopes) : Expr → Eval Datum
  | .integer _ value => pure ⟨.i32, [.i32 (Int32.ofInt value).toUInt32]⟩
  | .float _ value => pure ⟨.f64, [.f32 (.ofDouble value)]⟩
  | .string _ text =>
    match x.setting.symbols.stringOffset? text with
    | some offset => pure ⟨.string, [.i32 (.ofNat offset)]⟩
    | none => throw .wrong
  | .identifier _ name =>
    match lookup name scopes with
    | some d => pure d
    | none => throw .wrong
  | .unary _ .not _ => throw .wrong
  | .unary _ .negate operand => do
    let d ← evalExpr x scopes operand
    d.negate
  | .binary _ .and left right => do
    let l ← evalExpr x scopes left
    if (← l.word) = 0 then return .ofBool false
    else
      let r ← evalExpr x scopes right
      return .ofBool ((← r.word) ≠ 0)
  | .binary _ .or left right => do
    let l ← evalExpr x scopes left
    if (← l.word) = 0 then
      let r ← evalExpr x scopes right
      return .ofBool ((← r.word) ≠ 0)
    else return .ofBool true
  | .binary _ op left right => do
    let l ← evalExpr x scopes left
    let r ← evalExpr x scopes right
    operate op l r
  | .call _ callee args => do
    let ds ← evalAll x scopes args
    x.call callee ds
  | .member _ base name => do
    let b ← evalExpr x scopes base
    match b.type.field? name with
    | some (i, type) => load type ((← b.word).toNat + i * cellSize)
    | none => throw .wrong
  | .index _ base index => do
    let b ← evalExpr x scopes base
    match b.type with
    | .array type =>
      let i ← evalExpr x scopes index
      load type (elementAddress (← b.word) (← i.word))
    | .tuple elements =>
      match index.elementIndex? elements.length with
      | some i => element elements b.values i
      | none => throw .wrong
    | _ => throw .wrong
  | .array _ items => do
    let block ← reserve x.setting x.fuel (.ofNat (cellSize * (items.length + 1)))
    storeWord block.toNat (.ofNat items.length)
    let types ← evalItems x scopes block 1 items
    -- what an array without items is one of, only its place can tell
    return ⟨.array (types.headD .none), [.i32 block]⟩
  | .tuple _ items => do
    let ds ← evalAll x scopes items
    return ⟨.tuple (ds.map (·.type)), ds.flatMap (·.values)⟩

/-- Evaluates expressions in order. -/
def evalAll (x : Interpreter) (scopes : Scopes) : List Expr → Eval (List Datum)
  | [] => pure []
  | e :: es => do
    let d ← evalExpr x scopes e
    let ds ← evalAll x scopes es
    return d :: ds

/-- Evaluates the items of an array, each of which goes into its cell at once. Gives their types. -/
def evalItems (x : Interpreter) (scopes : Scopes) (block : UInt32) (cell : Nat) :
    List Expr → Eval (List DataType)
  | [] => pure []
  | e :: es => do
    let d ← evalExpr x scopes e
    store (block.toNat + cell * cellSize) d
    let types ← evalItems x scopes block (cell + 1) es
    return d.type :: types

end

/-! ### Statements -/

/-- How a statement ends: with the variables after it, or with a return from the function. -/
inductive Flow where
  | next (scopes : Scopes)
  | returned (values : List Value)

/-- Goes on after a statement, unless it returned. -/
def Flow.andThen (flow : Flow) (rest : Scopes → Eval Flow) : Eval Flow :=
  match flow with
  | .next scopes => rest scopes
  | .returned values => pure (.returned values)

/-- Executes in a scope of its own. -/
def inScope (body : Scopes → Eval Flow) (scopes : Scopes) : Eval Flow := do
  let flow ← body ([] :: scopes)
  flow.andThen fun scopes => pure (.next scopes.tail)

/-- Executes as long as a condition holds. -/
def repeatWhile (condition : Scopes → Eval Datum) (body : Scopes → Eval Flow) :
    (fuel : Nat) → Scopes → Eval Flow
  | 0, _ => throw .endless
  | fuel + 1, scopes => do
    let d ← condition scopes
    if (← d.word) = 0 then return .next scopes
    else
      let flow ← body scopes
      flow.andThen (repeatWhile condition body fuel)

/-- Assigns to a variable or to a field. -/
def execAssignment (x : Interpreter) (scopes : Scopes) (value : Expr) : Expr → Eval Flow
  | .identifier _ name => do
    let d ← evalExpr x scopes value
    match assign name d.values scopes with
    | some scopes => return .next scopes
    | none => throw .wrong
  | .member _ base name => do
    let b ← evalExpr x scopes base
    let d ← evalExpr x scopes value
    match b.type.field? name with
    | some (i, _) =>
      store ((← b.word).toNat + i * cellSize) d
      return .next scopes
    | none => throw .wrong
  | _ => throw .wrong

mutual

/-- Executes a statement. -/
def execStmt (x : Interpreter) : Stmt → Scopes → Eval Flow
  | .declare _ _ bindings none, scopes => do
    return .next (← bind none bindings scopes)
  | .declare _ _ bindings (some value), scopes => do
    let d ← evalExpr x scopes value
    return .next (← bind (some d.values) bindings scopes)
  | .function .., _ | .struct .., _ => throw .wrong
  | .ret _ none, _ => return .returned []
  | .ret _ (some value), scopes => do
    let d ← evalExpr x scopes value
    return .returned d.values
  | .assign _ target value, scopes => execAssignment x scopes value target
  | .conditional _ condition body none, scopes => do
    let d ← evalExpr x scopes condition
    if (← d.word) = 0 then return .next scopes
    else inScope (execStmts x body) scopes
  | .conditional _ condition body (some alternate), scopes => do
    let d ← evalExpr x scopes condition
    if (← d.word) = 0 then execStmt x alternate scopes
    else inScope (execStmts x body) scopes
  | .whileLoop _ condition body, scopes =>
    repeatWhile (evalExpr x · condition) (inScope (execStmts x body)) x.fuel scopes
  | .print _ value, scopes => do
    let d ← evalExpr x scopes value
    print x.setting d.type (← d.word)
    return .next scopes
  | .expression _ value, scopes => do
    let _ ← evalExpr x scopes value
    return .next scopes
  | .block _ body, scopes => inScope (execStmts x body) scopes

/-- Executes statements in order, until one returns. -/
def execStmts (x : Interpreter) : List Stmt → Scopes → Eval Flow
  | [], scopes => return .next scopes
  | s :: ss, scopes => do
    let flow ← execStmt x s scopes
    flow.andThen (execStmts x ss)

end

/-! ### Functions -/

/-- The function of a name, with its body. -/
def Setting.function? (s : Setting) (name : String) : Option (FunctionHeader × List Stmt) :=
  s.program.statements.findSome? fun
    | .function _ header body => if header.name = name then some (header, body) else none
    | _ => none

/-- The scope of a function's parameters. The last one is the innermost. -/
def parameterScope : List (Field × DataType) → List Datum → List (String × Datum) →
    Eval (List (String × Datum))
  | [], [], scope => pure scope
  | (param, type) :: params, d :: ds, scope =>
    parameterScope params ds ((param.name, ⟨type, d.values⟩) :: scope)
  | _, _, _ => throw .wrong

/-- The result of a function, once its body has ended. One that gives a value may not reach its
end. -/
def functionResult (result : DataType) : Flow → Eval Datum
  | .returned values => pure ⟨result, values⟩
  | .next _ => if result.isNone then pure ⟨result, []⟩ else throw (.trap .unreachable)

/-- Prints the only argument of a call. -/
def printCall (s : Setting) (type : DataType) : List Datum → Eval Datum
  | [d] => do
    print s type (← d.word)
    return ⟨.none, []⟩
  | _ => throw .wrong

/-- Calls a function of the host or of the program, or the constructor of a struct. -/
def call (s : Setting) : (fuel : Nat) → String → List Datum → Eval Datum
  | 0, _, _ => throw .endless
  | fuel + 1, callee, args =>
    if callee = printName then printCall s .i32 args
    else if callee = printStringName then printCall s .string args
    else
      match s.function? callee, s.symbols.function? callee, s.symbols.struct? callee with
      | some (header, body), some signature, _ => do
        let scope ← parameterScope (header.params.zip signature.params) args []
        let flow ← execStmts ⟨s, fuel, call s fuel⟩ body [scope]
        functionResult signature.result flow
      | _, _, some fields => do
        let block ← reserve s fuel (.ofNat (DataType.structSize fields))
        storeAll block 0 args
        return ⟨.struct callee fields, [.i32 block]⟩
      | _, _, _ => throw .wrong

end WasmCompiler.Source
