import WasmCompiler.Wasm.Machine.Host
import WasmCompiler.Wasm.Module

/-!
# Running instructions

A machine holds the code that is left to run, the stack of values, the blocks that enclose the
code and the functions that wait for the current one. `step` runs one instruction. It is total:
code that asks for a value which is not there, or is of another type, stops the machine as a trap
does; valid code never does that.
-/

namespace WasmCompiler.Wasm

open Number (Single)

/-- A value on the stack or in a local. -/
inductive Value where
  | i32 (word : UInt32)
  | f32 (number : Single)
deriving DecidableEq, Repr, Inhabited

namespace Value

def type : Value → ValueType
  | .i32 _ => .i32
  | .f32 _ => .f32

/-- The zero of a type. -/
def zero : ValueType → Value
  | .i32 => .i32 0
  | .f32 => .f32 .zero

/-- A truth value. -/
def ofBool (b : Bool) : Value :=
  .i32 (if b then 1 else 0)

end Value

/-- Why a program stops before its end. -/
inductive Trap where
  | unreachable
  | divideByZero
  | integerOverflow
  | outOfBounds
  | stackExhausted
  /-- The code is not valid. -/
  | stuck
deriving DecidableEq, Repr

/-! ### Operations -/

/-- The result of an integer operation, with wrap-around. -/
def IntOp.apply (op : IntOp) (x y : UInt32) : Except Trap UInt32 :=
  match op with
  | .add => .ok (x + y)
  | .sub => .ok (x - y)
  | .mul => .ok (x * y)
  | .divS =>
    if y = 0 then .error .divideByZero
    else if x = 0x80000000 ∧ y = 0xffffffff then .error .integerOverflow
    else .ok (x.toInt32 / y.toInt32).toUInt32
  | .eq => .ok (if x = y then 1 else 0)
  | .ne => .ok (if x ≠ y then 1 else 0)
  | .ltS => .ok (if x.toInt32 < y.toInt32 then 1 else 0)
  | .gtS => .ok (if y.toInt32 < x.toInt32 then 1 else 0)
  | .leS => .ok (if x.toInt32 ≤ y.toInt32 then 1 else 0)
  | .geS => .ok (if y.toInt32 ≤ x.toInt32 then 1 else 0)
  | .leU => .ok (if x ≤ y then 1 else 0)
  | .shl => .ok (x <<< y)

/-- The result of a float operation. -/
def FloatOp.apply (op : FloatOp) (x y : Single) : Value :=
  match op with
  | .add => .f32 (x.add y)
  | .sub => .f32 (x.sub y)
  | .mul => .f32 (x.mul y)
  | .div => .f32 (x.div y)
  | .eq => .ofBool (x.eq y)
  | .ne => .ofBool (!x.eq y)
  | .lt => .ofBool (x.lt y)
  | .gt => .ofBool (y.lt x)
  | .le => .ofBool (x.le y)
  | .ge => .ofBool (y.le x)

/-- A stored word as a value. -/
def Value.ofWord : ValueType → UInt32 → Value
  | .i32, w => .i32 w
  | .f32, w => .f32 ⟨w⟩

/-- The word in which a value of a type is stored. -/
def Value.toWord? : ValueType → Value → Option UInt32
  | .i32, .i32 w => some w
  | .f32, .f32 x => some x.bits
  | _, _ => none

/-! ### Machines -/

/-- A function that can be called. -/
inductive Callee where
  | host (function : HostFunction)
  /-- A function of the program, and the room that a call of it takes. -/
  | defined (type : FuncType) (code : Code) (room : Nat)

/-- What does not change while a program runs. -/
structure Environment where
  functions : Array Callee
  /-- Whether the host can see the memory. -/
  exportsMemory : Bool
  /-- Whether the host lets the memory have a number of pages. -/
  grantsPages : Nat → Bool
  /-- The room for all functions that are being run. -/
  stackRoom : Nat

/-- What a program leaves behind. -/
structure Store where
  memory : Memory
  globals : Array UInt32
  host : HostState

/-- A block that encloses the code. -/
structure Label where
  /-- How many values a jump to the block brings. -/
  arity : Nat
  /-- Where such a jump goes on. -/
  target : List Instr
  /-- Where the end of the block goes on. -/
  rest : List Instr
  /-- The stack below the block. -/
  below : List Value

/-- A function that is being run. -/
structure Frame where
  code : List Instr
  stack : List Value
  labels : List Label
  locals : Array Value
  /-- How many values the function returns. -/
  arity : Nat
  /-- The room that the function and those that wait for it take. -/
  room : Nat

structure Machine where
  frame : Frame
  /-- The functions that wait for the current one. -/
  callers : List Frame
  store : Store

/-- What a machine does next. -/
inductive Outcome where
  | running (machine : Machine)
  | finished (results : List Value) (store : Store)
  | trapped (trap : Trap)

namespace Machine

/-- A machine that is about to call a function for the host. -/
def calling (function : Nat) (args : List Value) (arity : Nat) (store : Store) : Machine :=
  ⟨⟨[.call function], args.reverse, [], #[], arity, 0⟩, [], store⟩

/-- Goes on in the current function. -/
def next (frame : Frame) (callers : List Frame) (store : Store) : Outcome :=
  .running ⟨frame, callers, store⟩

/-- Returns the top values of a stack to the caller, or to the host if there is none. -/
def return_ (stack : List Value) (arity : Nat) (callers : List Frame) (store : Store) : Outcome :=
  match callers with
  | [] => .finished (stack.take arity).reverse store
  | caller :: callers =>
    next { caller with stack := stack.take arity ++ caller.stack } callers store

/-- Jumps to an enclosing block, or returns if the jump leaves the function. -/
def jump (f : Frame) (depth : Nat) (callers : List Frame) (store : Store) : Outcome :=
  match f.labels.drop depth with
  | [] => return_ f.stack f.arity callers store
  | label :: labels =>
    next { f with code := label.target, stack := f.stack.take label.arity ++ label.below, labels }
      callers store

/-- Begins a block. A jump to a loop begins it again; a jump to any other block ends it. -/
def enter (f : Frame) (arity : Nat) (body target rest : List Instr) (stack : List Value) : Frame :=
  { f with code := body, stack, labels := ⟨arity, target, rest, stack⟩ :: f.labels }

/-- Calls a function with the values on top of the stack, the last argument on top. -/
def call (env : Environment) (f : Frame) (function : Nat) (rest : List Instr)
    (callers : List Frame) (store : Store) : Outcome :=
  match env.functions[function]? with
  | none => .trapped .stuck
  | some (.host hostFunction) =>
    match f.stack with
    | .i32 w :: stack =>
      let host :=
        match hostFunction with
        | .print => store.host.line (toString w.toInt32.toInt)
        | .printString =>
          store.host.printString (if env.exportsMemory then some store.memory else none) w.toNat
      next { f with code := rest, stack } callers { store with host }
    | _ => .trapped .stuck
  | some (.defined type code room) =>
    if env.stackRoom < f.room + room then .trapped .stackExhausted
    else
      let count := type.params.length
      let locals := (f.stack.take count).reverse ++ code.locals.map Value.zero
      next ⟨code.body, [], [], locals.toArray, type.results.length, f.room + room⟩
        ({ f with code := rest, stack := f.stack.drop count } :: callers) store

/-- The effective address of a memory access. -/
def address (base : UInt32) (offset : Nat) : Nat :=
  base.toNat + offset

/-- Runs an instruction that stays in its function and its block and touches only the stack and
the locals. The instructions that do more are not its concern. -/
def simple (i : Instr) (stack : List Value) (locals : Array Value) :
    Except Trap (List Value × Array Value) :=
  match i, stack with
  | .drop, _ :: stack => .ok (stack, locals)
  | .localGet index, stack =>
    match locals[index]? with
    | some v => .ok (v :: stack, locals)
    | none => .error .stuck
  | .localSet index, v :: stack =>
    if index < locals.size then .ok (stack, locals.setIfInBounds index v) else .error .stuck
  | .localTee index, v :: stack =>
    if index < locals.size then .ok (v :: stack, locals.setIfInBounds index v)
    else .error .stuck
  | .i32Const w, stack => .ok (.i32 w :: stack, locals)
  | .f32Const x, stack => .ok (.f32 x :: stack, locals)
  | .i32Eqz, .i32 w :: stack => .ok (.ofBool (w = 0) :: stack, locals)
  | .i32Op op, .i32 y :: .i32 x :: stack =>
    match op.apply x y with
    | .ok w => .ok (.i32 w :: stack, locals)
    | .error trap => .error trap
  | .f32Neg, .f32 x :: stack => .ok (.f32 x.neg :: stack, locals)
  | .f32Op op, .f32 y :: .f32 x :: stack => .ok (op.apply x y :: stack, locals)
  | .f32ConvertI32S, .i32 w :: stack => .ok (.f32 (.ofInt w.toInt32.toInt) :: stack, locals)
  | _, _ => .error .stuck

/-- Runs an instruction that reads or changes the memory or a global. -/
def access (env : Environment) (i : Instr) (stack : List Value) (store : Store) :
    Except Trap (List Value × Store) :=
  match i, stack with
  | .globalGet index, stack =>
    match store.globals[index]? with
    | some w => .ok (.i32 w :: stack, store)
    | none => .error .stuck
  | .globalSet index, .i32 w :: stack =>
    .ok (stack, { store with globals := store.globals.setIfInBounds index w })
  | .load type offset, .i32 base :: stack =>
    match store.memory.word? (address base offset) with
    | some w => .ok (.ofWord type w :: stack, store)
    | none => .error .outOfBounds
  | .store type offset, value :: .i32 base :: stack =>
    match value.toWord? type with
    | none => .error .stuck
    | some w =>
      let ⟨memory, globals, host⟩ := store
      match memory.setWord? (address base offset) w with
      | some memory => .ok (stack, ⟨memory, globals, host⟩)
      | none => .error .outOfBounds
  | .memorySize, stack => .ok (.i32 (.ofNat store.memory.pageCount) :: stack, store)
  | .memoryGrow, .i32 count :: stack =>
    let ⟨memory, globals, host⟩ := store
    let before := memory.pageCount
    if env.grantsPages (before + count.toNat) then
      .ok (.i32 (.ofNat before) :: stack, ⟨memory.grow count.toNat, globals, host⟩)
    else .ok (.i32 0xffffffff :: stack, ⟨memory, globals, host⟩)
  | _, _ => .error .stuck

/-- Runs one instruction. -/
def step (env : Environment) : Machine → Outcome
  | ⟨⟨code, stack, labels, locals, arity, room⟩, callers, store⟩ =>
    match code with
    | [] =>
      -- the end of a block, or of the function
      match labels with
      | [] => return_ stack arity callers store
      | label :: labels => next ⟨label.rest, stack, labels, locals, arity, room⟩ callers store
    | i :: rest =>
      match i with
      | .unreachable => .trapped .unreachable
      | .block result body =>
        next
          (enter ⟨rest, stack, labels, locals, arity, room⟩ result.toList.length body rest rest
            stack)
          callers store
      | .loop _ body =>
        -- a jump here runs the whole loop again
        next (enter ⟨rest, stack, labels, locals, arity, room⟩ 0 body (i :: rest) rest stack)
          callers store
      | .branch result body alternate =>
        match stack with
        | .i32 w :: stack =>
          let body := if w ≠ 0 then body else alternate.getD []
          next
            (enter ⟨rest, stack, labels, locals, arity, room⟩ result.toList.length body rest rest
              stack)
            callers store
        | _ => .trapped .stuck
      | .br target => jump ⟨rest, stack, labels, locals, arity, room⟩ target callers store
      | .brIf target =>
        match stack with
        | .i32 w :: stack =>
          if w ≠ 0 then jump ⟨rest, stack, labels, locals, arity, room⟩ target callers store
          else next ⟨rest, stack, labels, locals, arity, room⟩ callers store
        | _ => .trapped .stuck
      | .ret => return_ stack arity callers store
      | .call function =>
        call env ⟨rest, stack, labels, locals, arity, room⟩ function rest callers store
      | .globalGet _ | .globalSet _ | .load .. | .store .. | .memorySize | .memoryGrow =>
        match access env i stack store with
        | .ok (stack, store) => next ⟨rest, stack, labels, locals, arity, room⟩ callers store
        | .error trap => .trapped trap
      | _ =>
        match simple i stack locals with
        | .ok (stack, locals) => next ⟨rest, stack, labels, locals, arity, room⟩ callers store
        | .error trap => .trapped trap

/-- Runs at most a number of instructions; `none` if they were not enough. -/
def run (env : Environment) : (fuel : Nat) → Machine → Option (Except Trap (List Value × Store))
  | 0, _ => none
  | fuel + 1, m =>
    match m.step env with
    | .running m => run env fuel m
    | .finished results store => some (.ok (results, store))
    | .trapped trap => some (.error trap)

end Machine

end WasmCompiler.Wasm
