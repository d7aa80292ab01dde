import Mathlib.Data.List.Induction
import WasmCompiler.Lowering.Stmt
import WasmCompiler.Wasm.Machine.Step

/-!
# Running code

`Reaches env m m'` says that a machine gets from `m` to `m'`. Code runs in a place (`Place`): the
blocks around it, the functions that wait and the room that is taken do not change while a piece of
code runs, only its code, stack, locals and store do. There is one lemma for each instruction, and
one for each sequence over slots. `Machine.run_of_reaches` gets back to the run of a whole machine.

* `Machine.run_withRoom` compares machines with different room for calls;
* `reaches_block`, `reaches_loop` and `reaches_branch_taken` enter a block, and `reaches_end` and
  `reaches_br_zero` leave it;
* `reaches_call` and `reaches_return` are the two ends of a call;
* `reaches_getSlots`, `reaches_setSlots` and `reaches_copySlots` run the code that moves the values
  of a variable.
-/

namespace WasmCompiler.Wasm

variable {env : Environment}

namespace Machine

/-- The machine gets from one state to another. -/
inductive Reaches (env : Environment) : Machine → Machine → Prop
  | refl {m} : Reaches env m m
  | step {m m₁ m'} (hstep : m.step env = .running m₁) (hrest : Reaches env m₁ m') :
    Reaches env m m'

theorem Reaches.trans {m m₁ m' : Machine} (h : Reaches env m m₁) (h' : Reaches env m₁ m') :
    Reaches env m m' := by
  induction h with
  | refl => exact h'
  | step hstep _ ih => exact .step hstep (ih h')

theorem Reaches.single {m m' : Machine} (h : m.step env = .running m') : Reaches env m m' :=
  .step h .refl

/-- A run goes on where the machine gets to. -/
theorem run_of_reaches {m m' : Machine} (h : Reaches env m m')
    {result : Except Trap (List Value × Store)} (h' : ∃ steps, m'.run env steps = some result) :
    ∃ steps, m.run env steps = some result := by
  induction h with
  | refl => exact h'
  | step hstep _ ih =>
    obtain ⟨steps, hrun⟩ := ih h'
    refine ⟨steps + 1, ?_⟩
    rw [run, hstep]
    exact hrun

/-- With less room a step does the same, unless it is a call that finds no room. -/
theorem step_withRoom {room : Nat} (hle : room ≤ env.stackRoom) (m : Machine) :
    m.step { env with stackRoom := room } = m.step env ∨
      m.step { env with stackRoom := room } = .trapped .stackExhausted := by
  obtain ⟨⟨code, stack, labels, locals, arity, taken⟩, callers, store⟩ := m
  cases code with
  | nil => exact .inl rfl
  | cons i rest =>
    cases i with
    | call function =>
      simp only [step, call]
      cases env.functions[function]? with
      | none => exact .inl rfl
      | some callee =>
        cases callee with
        | host _ => exact .inl rfl
        | defined type code needed =>
          -- a call is the only step that looks at the room that is left
          by_cases hroom : room < taken + needed
          · exact .inr (if_pos hroom)
          · have hroom' : ¬env.stackRoom < taken + needed := by omega
            exact .inl (by simp only [hroom, hroom', ↓reduceIte])
    | _ => exact .inl rfl

/-- With less room a run gives the same, unless it runs out of room. -/
theorem run_withRoom {room : Nat} (hle : room ≤ env.stackRoom) {steps : Nat} {m : Machine}
    {result : Except Trap (List Value × Store)} (h : m.run env steps = some result) :
    m.run { env with stackRoom := room } steps = some result ∨
      m.run { env with stackRoom := room } steps = some (.error .stackExhausted) := by
  induction steps generalizing m with
  | zero => cases h
  | succ steps ih =>
    rw [run] at h ⊢
    -- either both machines take the same step, or the one with less room stops
    rcases step_withRoom hle m with hstep | hstep
    · rw [hstep]
      cases hm : m.step env with
      | running m' =>
        rw [hm] at h
        exact ih h
      | finished _ _ | trapped _ =>
        rw [hm] at h
        exact .inl h
    · rw [hstep]
      exact .inr rfl

end Machine

/-- Where a piece of code runs. -/
structure Place where
  labels : List Label
  arity : Nat
  room : Nat
  callers : List Frame

namespace Place

/-- The machine that runs code in a place. -/
def machine (p : Place) (code : List Instr) (stack : List Value) (locals : Array Value)
    (store : Store) : Machine :=
  ⟨⟨code, stack, p.labels, locals, p.arity, p.room⟩, p.callers, store⟩

/-- The place inside a block. -/
def within (p : Place) (label : Label) : Place :=
  { p with labels := label :: p.labels }

/-- The place of a function that is called here, whose call is followed by `rest`. -/
def callee (p : Place) (rest : List Instr) (stack : List Value) (locals : Array Value)
    (arity room : Nat) : Place :=
  ⟨[], arity, p.room + room, ⟨rest, stack, p.labels, locals, p.arity, p.room⟩ :: p.callers⟩

variable (p : Place) (rest : List Instr) (stack : List Value) (locals : Array Value)
  (store : Store)

-- There is a lemma for each instruction, so the equations of a step are made here once.
attribute [local simp] machine Machine.step Machine.simple Machine.access Machine.call

/-! ### Instructions

One lemma for each instruction, and one more for each way to trap. -/

open Machine (Reaches)

theorem reaches_i32Const (w : UInt32) :
    Reaches env (p.machine (.i32Const w :: rest) stack locals store)
      (p.machine rest (.i32 w :: stack) locals store) :=
  .single rfl

theorem reaches_f32Const (x : Number.Single) :
    Reaches env (p.machine (.f32Const x :: rest) stack locals store)
      (p.machine rest (.f32 x :: stack) locals store) :=
  .single rfl

theorem reaches_zero (type : ValueType) :
    Reaches env (p.machine (.zero type :: rest) stack locals store)
      (p.machine rest (.zero type :: stack) locals store) := by
  cases type <;> exact .single rfl

theorem reaches_drop (v : Value) :
    Reaches env (p.machine (.drop :: rest) (v :: stack) locals store)
      (p.machine rest stack locals store) :=
  .single rfl

theorem reaches_localGet {index : Nat} {v : Value} (h : locals[index]? = some v) :
    Reaches env (p.machine (.localGet index :: rest) stack locals store)
      (p.machine rest (v :: stack) locals store) := by
  refine .single ?_
  simp only [machine, Machine.step, Machine.simple, h]
  rfl

theorem reaches_localSet {index : Nat} (v : Value) (h : index < locals.size) :
    Reaches env (p.machine (.localSet index :: rest) (v :: stack) locals store)
      (p.machine rest stack (locals.setIfInBounds index v) store) := by
  refine .single ?_
  simp only [machine, Machine.step, Machine.simple, h, ↓reduceIte]
  rfl

theorem reaches_localTee {index : Nat} (v : Value) (h : index < locals.size) :
    Reaches env (p.machine (.localTee index :: rest) (v :: stack) locals store)
      (p.machine rest (v :: stack) (locals.setIfInBounds index v) store) := by
  refine .single ?_
  simp only [machine, Machine.step, Machine.simple, h, ↓reduceIte]
  rfl

theorem reaches_i32Eqz (w : UInt32) :
    Reaches env (p.machine (.i32Eqz :: rest) (.i32 w :: stack) locals store)
      (p.machine rest (.ofBool (w = 0) :: stack) locals store) :=
  .single rfl

/-- The right operand is on top. For a division without a result there is `step_i32Op_trapped`. -/
theorem reaches_i32Op {op : IntOp} {a b w : UInt32} (h : op.apply a b = .ok w) :
    Reaches env (p.machine (.i32Op op :: rest) (.i32 b :: .i32 a :: stack) locals store)
      (p.machine rest (.i32 w :: stack) locals store) := by
  refine .single ?_
  simp only [machine, Machine.step, Machine.simple, h]
  rfl

/-- An operation without a result traps, for the reason that it gives. -/
theorem step_i32Op_trapped {op : IntOp} {a b : UInt32} {cause : Trap}
    (h : op.apply a b = .error cause) :
    (p.machine (.i32Op op :: rest) (.i32 b :: .i32 a :: stack) locals store).step env =
      .trapped cause := by
  simp only [machine, Machine.step, Machine.simple, h]

theorem reaches_f32Neg (x : Number.Single) :
    Reaches env (p.machine (.f32Neg :: rest) (.f32 x :: stack) locals store)
      (p.machine rest (.f32 x.neg :: stack) locals store) :=
  .single rfl

theorem reaches_f32Op (op : FloatOp) (a b : Number.Single) :
    Reaches env (p.machine (.f32Op op :: rest) (.f32 b :: .f32 a :: stack) locals store)
      (p.machine rest (op.apply a b :: stack) locals store) :=
  .single rfl

theorem reaches_f32ConvertI32S (w : UInt32) :
    Reaches env (p.machine (.f32ConvertI32S :: rest) (.i32 w :: stack) locals store)
      (p.machine rest (.f32 (.ofInt w.toInt32.toInt) :: stack) locals store) :=
  .single rfl

/-- What a step does with what an access to memory gives. -/
def accessed (p : Place) (rest : List Instr) (locals : Array Value) :
    Except Trap (List Value × Store) → Outcome
  | .ok (stack, store) => .running (p.machine rest stack locals store)
  | .error trap => .trapped trap

/-- A load is what the access to memory makes of it. -/
theorem step_load (type : ValueType) (offset : Nat) :
    (p.machine (.load type offset :: rest) stack locals store).step env =
      p.accessed rest locals (Machine.access env (.load type offset) stack store) :=
  rfl

/-- The word at the address is pushed, as a value of the type. -/
theorem reaches_load {type : ValueType} {offset : Nat} {base w : UInt32}
    (h : store.memory.word? (base.toNat + offset) = some w) :
    Reaches env (p.machine (.load type offset :: rest) (.i32 base :: stack) locals store)
      (p.machine rest (.ofWord type w :: stack) locals store) := by
  refine .single ?_
  rw [step_load, Machine.access, Machine.address, h]
  rfl

/-- A load from outside of the memory traps. -/
theorem step_load_trapped {type : ValueType} {offset : Nat} {base : UInt32}
    (h : store.memory.word? (base.toNat + offset) = none) :
    (p.machine (.load type offset :: rest) (.i32 base :: stack) locals store).step env =
      .trapped .outOfBounds := by
  rw [step_load, Machine.access, Machine.address, h]
  rfl

/-- A store is what the access to memory makes of it. -/
theorem step_store (type : ValueType) (offset : Nat) :
    (p.machine (.store type offset :: rest) stack locals store).step env =
      p.accessed rest locals (Machine.access env (.store type offset) stack store) :=
  rfl

-- stated for any way to write a word, since the one of the memory is slow to unfold
theorem write_eq {setWord : Memory → Nat → UInt32 → Option Memory} {address : Nat} {w : UInt32}
    {before : Memory} {globals : Array UInt32} {host : HostState} {after : Option Memory}
    (h : setWord before address w = after) :
    (match some w with
      | none => .error .stuck
      | some w =>
        let ⟨memory, globals, host⟩ := (⟨before, globals, host⟩ : Store)
        match setWord memory address w with
        | some memory => .ok (stack, ⟨memory, globals, host⟩)
        | none => .error .outOfBounds : Except Trap (List Value × Store)) =
      after.elim (.error .outOfBounds) fun memory => .ok (stack, ⟨memory, globals, host⟩) := by
  simp only [h]
  cases after <;> rfl

/-- A store writes to memory, or it is out of bounds. -/
theorem access_store {type : ValueType} {offset : Nat} {base w : UInt32} {v : Value}
    {before : Memory} {globals : Array UInt32} {host : HostState} {after : Option Memory}
    (hword : v.toWord? type = some w) (h : before.setWord? (base.toNat + offset) w = after) :
    Machine.access env (.store type offset) (v :: .i32 base :: stack) ⟨before, globals, host⟩ =
      after.elim (.error .outOfBounds) fun memory => .ok (stack, ⟨memory, globals, host⟩) := by
  rw [Machine.access, hword]
  exact write_eq stack h

/-- The value is on top of the address, and both are taken off. -/
theorem reaches_store {type : ValueType} {offset : Nat} {base w : UInt32} {v : Value}
    {memory : Memory} (hword : v.toWord? type = some w)
    (h : store.memory.setWord? (base.toNat + offset) w = some memory) :
    Reaches env (p.machine (.store type offset :: rest) (v :: .i32 base :: stack) locals store)
      (p.machine rest stack locals { store with memory }) := by
  refine .single ?_
  obtain ⟨before, globals, host⟩ := store
  rw [step_store, access_store stack hword h]
  rfl

/-- A store to outside of the memory traps. -/
theorem step_store_trapped {type : ValueType} {offset : Nat} {base w : UInt32} {v : Value}
    (hword : v.toWord? type = some w)
    (h : store.memory.setWord? (base.toNat + offset) w = none) :
    (p.machine (.store type offset :: rest) (v :: .i32 base :: stack) locals store).step env =
      .trapped .outOfBounds := by
  obtain ⟨before, globals, host⟩ := store
  rw [step_store, access_store stack hword h]
  rfl

theorem reaches_globalGet {index : Nat} {w : UInt32} (h : store.globals[index]? = some w) :
    Reaches env (p.machine (.globalGet index :: rest) stack locals store)
      (p.machine rest (.i32 w :: stack) locals store) := by
  refine .single ?_
  simp only [machine, Machine.step, Machine.access, h]
  rfl

theorem reaches_globalSet (index : Nat) (w : UInt32) :
    Reaches env (p.machine (.globalSet index :: rest) (.i32 w :: stack) locals store)
      (p.machine rest stack locals
        { store with globals := store.globals.setIfInBounds index w }) :=
  .single rfl

theorem reaches_memorySize :
    Reaches env (p.machine (.memorySize :: rest) stack locals store)
      (p.machine rest (.i32 (.ofNat store.memory.pageCount) :: stack) locals store) :=
  .single rfl

/-- If the pages are granted, the number that there were before is pushed. -/
theorem reaches_memoryGrow {count : UInt32}
    (h : env.grantsPages (store.memory.pageCount + count.toNat) = true) :
    Reaches env (p.machine (.memoryGrow :: rest) (.i32 count :: stack) locals store)
      (p.machine rest (.i32 (.ofNat store.memory.pageCount) :: stack) locals
        { store with memory := store.memory.grow count.toNat }) := by
  refine .single ?_
  obtain ⟨memory, globals, host⟩ := store
  simp only [machine, Machine.step, Machine.access, h, ↓reduceIte]
  rfl

/-- If they are refused, a word of ones is pushed. -/
theorem reaches_memoryGrow_refused {count : UInt32}
    (h : env.grantsPages (store.memory.pageCount + count.toNat) = false) :
    Reaches env (p.machine (.memoryGrow :: rest) (.i32 count :: stack) locals store)
      (p.machine rest (.i32 0xffffffff :: stack) locals store) := by
  refine .single ?_
  obtain ⟨memory, globals, host⟩ := store
  simp only [machine, Machine.step, Machine.access, Machine.next, h, Bool.false_eq_true,
    ↓reduceIte]

/-! ### Blocks

Entering a block, jumping out of it and coming to its end. -/

/-- What a jump to a block other than a loop does is what its end does. -/
def blockLabel (arity : Nat) (rest : List Instr) (stack : List Value) : Label :=
  ⟨arity, rest, rest, stack⟩

/-- A jump to a block leads behind it. -/
theorem reaches_block (body : List Instr) :
    Reaches env (p.machine (.block none body :: rest) stack locals store)
      ((p.within (blockLabel 0 rest stack)).machine body stack locals store) :=
  .single rfl

/-- A jump to a loop leads back to its beginning. -/
theorem reaches_loop (body : List Instr) :
    Reaches env (p.machine (.loop none body :: rest) stack locals store)
      ((p.within ⟨0, .loop none body :: rest, rest, stack⟩).machine body stack locals store) :=
  .single rfl

/-- The first body, for every word but zero. -/
theorem reaches_branch_taken {result : Option ValueType} {body : List Instr}
    {alternate : Option (List Instr)} {w : UInt32} (h : w ≠ 0) :
    Reaches env (p.machine (.branch result body alternate :: rest) (.i32 w :: stack) locals store)
      ((p.within (blockLabel result.toList.length rest stack)).machine body stack locals
        store) := by
  refine .single ?_
  simp only [machine, Machine.step, ne_eq, h, not_false_eq_true, ↓reduceIte]
  rfl

/-- The second body, or nothing if there is none. -/
theorem reaches_branch_not_taken {result : Option ValueType} {body : List Instr}
    {alternate : Option (List Instr)} :
    Reaches env (p.machine (.branch result body alternate :: rest) (.i32 0 :: stack) locals store)
      ((p.within (blockLabel result.toList.length rest stack)).machine (alternate.getD []) stack
        locals store) :=
  .single rfl

/-- At its end a block is left. -/
theorem reaches_end (label : Label) :
    Reaches env ((p.within label).machine [] stack locals store)
      (p.machine label.rest stack locals store) :=
  .single rfl

/-- A jump to the block around keeps as many values as the block gives. -/
theorem reaches_br_zero (label : Label) :
    Reaches env ((p.within label).machine (.br 0 :: rest) stack locals store)
      (p.machine label.target (stack.take label.arity ++ label.below) locals store) :=
  .single rfl

/-- A jump that is taken, out of two blocks. -/
theorem reaches_brIf_one (inner label : Label) {w : UInt32} (h : w ≠ 0) :
    Reaches env
      (((p.within label).within inner).machine (.brIf 1 :: rest) (.i32 w :: stack) locals store)
      (p.machine label.target (stack.take label.arity ++ label.below) locals store) := by
  refine .single ?_
  simp only [machine, within, Machine.step, ne_eq, h, not_false_eq_true, ↓reduceIte]
  rfl

theorem reaches_brIf_zero (depth : Nat) :
    Reaches env (p.machine (.brIf depth :: rest) (.i32 0 :: stack) locals store)
      (p.machine rest stack locals store) :=
  .single rfl

/-! ### Calls

Functions of the host take one step, and those of the module as many as their bodies. -/

/-- The host writes a signed number on a line. -/
theorem reaches_print {index : Nat} (h : env.functions[index]? = some (.host .print))
    (w : UInt32) :
    Reaches env (p.machine (.call index :: rest) (.i32 w :: stack) locals store)
      (p.machine rest stack locals
        { store with host := store.host.line (toString w.toInt32.toInt) }) := by
  refine .single ?_
  simp only [machine, Machine.step, Machine.call, h]
  rfl

/-- The host writes the text at an address. -/
theorem reaches_printString {index : Nat} (h : env.functions[index]? = some (.host .printString))
    (w : UInt32) :
    Reaches env (p.machine (.call index :: rest) (.i32 w :: stack) locals store)
      (p.machine rest stack locals
        { store with
          host := store.host.printString
            (if env.exportsMemory then some store.memory else none) w.toNat }) := by
  refine .single ?_
  simp only [machine, Machine.step, Machine.call, h]
  rfl

/-- A function begins with its arguments and zeros in its locals. -/
theorem reaches_call {index room : Nat} {type : FuncType} {code : Code} {args : List Value}
    (h : env.functions[index]? = some (.defined type code room))
    (hroom : p.room + room ≤ env.stackRoom) (hargs : args.length = type.params.length) :
    Reaches env (p.machine (.call index :: rest) (args.reverse ++ stack) locals store)
      ((p.callee rest stack locals type.results.length room).machine code.body []
        (args ++ code.locals.map Value.zero).toArray store) := by
  refine .single ?_
  have htake : (args.reverse ++ stack).take type.params.length = args.reverse := by
    rw [← hargs, ← List.length_reverse, List.take_left]
  have hdrop : (args.reverse ++ stack).drop type.params.length = stack := by
    rw [← hargs, ← List.length_reverse, List.drop_left]
  simp only [machine, Machine.step, Machine.call, h, Nat.not_lt.mpr hroom, ↓reduceIte, htake,
    hdrop, List.reverse_reverse]
  rfl

/-- A machine that is about to return values from the function that runs in a place. -/
def Returns (env : Environment) (p : Place) (values : List Value) (store : Store)
    (m : Machine) : Prop :=
  ∃ stack, m.step env = Machine.return_ stack p.arity p.callers store ∧
    stack.take p.arity = values.reverse

/-- A `return` gives the values on top, whatever is below them. -/
theorem returns_ret {values : List Value} (h : values.length = p.arity) :
    Returns env p values store
      (p.machine (.ret :: rest) (values.reverse ++ stack) locals store) := by
  refine ⟨values.reverse ++ stack, rfl, ?_⟩
  rw [← h, ← List.length_reverse, List.take_left]

/-- At the end of a function the stack holds its values and nothing else. -/
theorem returns_end {p : Place} (hlabels : p.labels = []) {values : List Value}
    (h : values.length = p.arity) :
    Returns env p values store (p.machine [] values.reverse locals store) := by
  obtain ⟨labels, arity, room, callers⟩ := p
  obtain rfl := hlabels
  refine ⟨values.reverse, rfl, ?_⟩
  rw [← List.length_reverse] at h
  exact List.take_of_length_le (Nat.le_of_eq h)

/-- A return goes on after the call. -/
theorem reaches_return {arity room : Nat} {values : List Value} {m : Machine}
    (h : Returns env (p.callee rest stack locals arity room) values store m) :
    Reaches env m (p.machine rest (values.reverse ++ stack) locals store) := by
  obtain ⟨stack', hstep, htake⟩ := h
  refine .single ?_
  rw [hstep]
  simp only [callee, Machine.return_] at htake ⊢
  rw [htake]
  rfl

end Place

/-! ### Locals side by side

The values of a variable are in neighbouring locals. -/

/-- The locals from a slot on hold these values. -/
def InLocals (locals : Array Value) (slot : Nat) (values : List Value) : Prop :=
  ∀ k v, values[k]? = some v → locals[slot + k]? = some v

/-- Locals after values were written from a slot on, and nothing else. -/
structure Written (locals : Array Value) (slot : Nat) (values : List Value)
    (locals' : Array Value) : Prop where
  size : locals'.size = locals.size
  holds : InLocals locals' slot values
  others : ∀ i, i < slot ∨ slot + values.length ≤ i → locals'[i]? = locals[i]?

/-- Locals that agree below a number. -/
structure Agrees (n : Nat) (locals locals' : Array Value) : Prop where
  size : locals'.size = locals.size
  below : ∀ i < n, locals'[i]? = locals[i]?

variable {locals locals₁ locals' : Array Value} {slot n : Nat} {values : List Value}

theorem Agrees.refl (n : Nat) (locals : Array Value) : Agrees n locals locals :=
  ⟨rfl, fun _ _ => rfl⟩

theorem Agrees.trans (h : Agrees n locals locals₁) (h' : Agrees n locals₁ locals') :
    Agrees n locals locals' :=
  ⟨h'.size.trans h.size, fun i hi => (h'.below i hi).trans (h.below i hi)⟩

theorem Agrees.mono (h : Agrees n locals locals') {n' : Nat} (hle : n' ≤ n) :
    Agrees n' locals locals' :=
  ⟨h.size, fun i hi => h.below i (Nat.lt_of_lt_of_le hi hle)⟩

/-- Nothing is written below the slot. -/
theorem Written.agrees (h : Written locals slot values locals') (hle : n ≤ slot) :
    Agrees n locals locals' :=
  ⟨h.size, fun i hi => h.others i (.inl (Nat.lt_of_lt_of_le hi hle))⟩

/-- Values below the number are still there. -/
theorem InLocals.agrees (h : InLocals locals slot values) (hagrees : Agrees n locals locals')
    (hle : slot + values.length ≤ n) : InLocals locals' slot values := by
  intro k v hk
  have hlt : k < values.length := (List.getElem?_eq_some_iff.mp hk).1
  rw [hagrees.below (slot + k) (by omega)]
  exact h k v hk

theorem InLocals.left {more : List Value} (h : InLocals locals slot (values ++ more)) :
    InLocals locals slot values := by
  intro k v hk
  have hlt : k < values.length := (List.getElem?_eq_some_iff.mp hk).1
  exact h k v (by rw [List.getElem?_append_left hlt, hk])

theorem InLocals.right {more : List Value} (h : InLocals locals slot (values ++ more)) :
    InLocals locals (slot + values.length) more := by
  intro k v hk
  rw [Nat.add_assoc]
  refine h _ v ?_
  rw [List.getElem?_append_right (Nat.le_add_right _ _), Nat.add_sub_cancel_left, hk]

theorem InLocals.last {v : Value} (h : InLocals locals slot (values ++ [v])) :
    locals[slot + values.length]? = some v :=
  h _ _ (by simp)

/-- Part of the values, wherever they stand among them. -/
theorem InLocals.slice (h : InLocals locals slot values) (start width : Nat) :
    InLocals locals (slot + start) ((values.drop start).take width) := by
  intro k v hk
  have hget : values[start + k]? = some v := by
    rw [List.getElem?_take] at hk
    split at hk
    · rwa [List.getElem?_drop] at hk
    · cases hk
  rw [Nat.add_assoc]
  exact h _ _ hget

theorem Written.refl (locals : Array Value) (slot : Nat) : Written locals slot [] locals :=
  ⟨rfl, by simp [InLocals], fun _ _ => rfl⟩

/-- Writing the last value first. -/
theorem Written.of_last {v : Value} (hlt : slot + values.length < locals.size)
    (h : Written (locals.setIfInBounds (slot + values.length) v) slot values locals') :
    Written locals slot (values ++ [v]) locals' := by
  refine ⟨by simpa using h.size, fun k u hk => ?_, fun i hi => ?_⟩
  · rcases Nat.lt_or_ge k values.length with hk' | hk'
    · rw [List.getElem?_append_left hk'] at hk
      exact h.holds k u hk
    · -- the value written first is the last one, which no later write touches
      have hlast : k = values.length := by
        have := (List.getElem?_eq_some_iff.mp hk).1
        simp only [List.length_append, List.length_singleton] at this
        omega
      obtain rfl : v = u := by simpa [hlast] using hk
      rw [hlast, h.others _ (.inr (Nat.le_refl _))]
      simp [hlt]
  · simp only [List.length_append, List.length_singleton] at hi
    rw [h.others i (by omega)]
    exact Array.getElem?_setIfInBounds_ne (by omega)

/-- Writing the last value at last. -/
theorem Written.snoc {v : Value} (h : Written locals slot values locals')
    (hlt : slot + values.length < locals.size) :
    Written locals slot (values ++ [v]) (locals'.setIfInBounds (slot + values.length) v) := by
  have hlt' : slot + values.length < locals'.size := by rwa [h.size]
  refine ⟨by simpa using h.size, fun k u hk => ?_, fun i hi => ?_⟩
  · rcases Nat.lt_or_ge k values.length with hk' | hk'
    · rw [List.getElem?_append_left hk'] at hk
      rw [Array.getElem?_setIfInBounds_ne (by omega)]
      exact h.holds k u hk
    · -- the value behind the others is the one that was just written
      have hlast : k = values.length := by
        have := (List.getElem?_eq_some_iff.mp hk).1
        simp only [List.length_append, List.length_singleton] at this
        omega
      obtain rfl : v = u := by simpa [hlast] using hk
      rw [hlast]
      simp [hlt']
  · simp only [List.length_append, List.length_singleton] at hi
    rw [Array.getElem?_setIfInBounds_ne (by omega)]
    exact h.others i (by omega)

namespace Place

open Lowering
open Machine (Reaches)

variable (p : Place) (rest : List Instr) (stack : List Value) (store : Store)

/-- By induction on the values: they are pushed in order, so the last one is on top. -/
theorem reaches_getSlots (h : InLocals locals slot values) :
    Reaches env (p.machine (getSlots slot values.length ++ rest) stack locals store)
      (p.machine rest (values.reverse ++ stack) locals store) := by
  induction values using List.reverseRecOn generalizing rest with
  | nil => exact .refl
  | append_singleton values v ih =>
    have hcode : getSlots slot (values ++ [v]).length ++ rest =
        getSlots slot values.length ++ .localGet (slot + values.length) :: rest := by
      simp [getSlots, List.range_succ]
    rw [hcode, List.reverse_append]
    exact (ih _ h.left).trans (p.reaches_localGet _ _ _ _ h.last)

/-- By induction on the values, from the last one on. -/
theorem reaches_setSlots (h : slot + values.length ≤ locals.size) :
    ∃ locals', Written locals slot values locals' ∧
      Reaches env (p.machine (setSlots slot values.length ++ rest) (values.reverse ++ stack) locals
        store) (p.machine rest stack locals' store) := by
  induction values using List.reverseRecOn generalizing locals with
  | nil => exact ⟨locals, .refl _ _, .refl⟩
  | append_singleton values v ih =>
    have hlt : slot + values.length < locals.size := by
      rw [List.length_append, List.length_singleton] at h
      omega
    -- the last value is on top of the stack and is written first
    have hcode : setSlots slot (values ++ [v]).length ++ rest =
        .localSet (slot + values.length) :: (setSlots slot values.length ++ rest) := by
      simp [setSlots, List.range_succ]
    obtain ⟨locals', hwritten, hrun⟩ :=
      @ih (locals.setIfInBounds (slot + values.length) v) (by simp; omega)
    refine ⟨locals', .of_last hlt hwritten, ?_⟩
    rw [hcode, List.reverse_append]
    exact (p.reaches_localSet _ _ _ _ v hlt).trans hrun

theorem reaches_drops (values : List Value) (locals : Array Value) :
    Reaches env (p.machine (List.replicate values.length .drop ++ rest) (values.reverse ++ stack)
      locals store) (p.machine rest stack locals store) := by
  induction values using List.reverseRecOn with
  | nil => exact .refl
  | append_singleton values v ih =>
    rw [List.length_append, List.length_singleton, List.replicate_succ, List.reverse_append]
    exact (p.reaches_drop _ _ _ _ v).trans ih

/-- A variable without a value gets zeros of its types. -/
theorem reaches_zeroSlots {var : Variable} (h : var.slot + var.type.width ≤ locals.size) :
    ∃ locals', Written locals var.slot (var.type.machineTypes.map Value.zero) locals' ∧
      Reaches env (p.machine (zeroSlots var ++ rest) stack locals store)
        (p.machine rest stack locals' store) := by
  unfold zeroSlots
  unfold DataType.width at h
  generalize var.type.machineTypes = types at h
  induction types using List.reverseRecOn generalizing rest with
  | nil => exact ⟨locals, .refl _ _, .refl⟩
  | append_singleton types type ih =>
    rw [List.length_append, List.length_singleton] at h
    obtain ⟨locals', hwritten, hrun⟩ :=
      ih (.zero type :: .localSet (var.slot + types.length) :: rest) (by omega)
    have hlt : var.slot + (types.map Value.zero).length < locals.size := by
      rw [List.length_map]
      omega
    -- the last slot is written behind those of the other types
    have hlast := hwritten.snoc (v := .zero type) hlt
    rw [List.length_map] at hlast
    refine ⟨_, by rwa [List.map_append], ?_⟩
    simp only [List.zipIdx_append, List.flatMap_append, List.zipIdx_singleton, Nat.zero_add,
      List.flatMap_cons, List.flatMap_nil, List.append_nil, List.append_assoc, List.cons_append,
      List.nil_append]
    refine (hrun.trans (p.reaches_zero _ _ _ _ type)).trans (p.reaches_localSet _ _ _ _ _ ?_)
    rw [hwritten.size]
    omega

/-- The values of one variable are copied to another, whose slots come later. -/
theorem reaches_copySlots {target : Nat} (h : InLocals locals slot values)
    (happart : slot + values.length ≤ target) (hsize : target + values.length ≤ locals.size) :
    ∃ locals', Written locals target values locals' ∧
      Reaches env (p.machine (copySlots slot target values.length ++ rest) stack locals store)
        (p.machine rest stack locals' store) := by
  induction values using List.reverseRecOn generalizing rest with
  | nil => exact ⟨locals, .refl _ _, .refl⟩
  | append_singleton values v ih =>
    rw [List.length_append, List.length_singleton] at happart hsize
    obtain ⟨locals', hwritten, hrun⟩ :=
      ih (.localGet (slot + values.length) :: .localSet (target + values.length) :: rest) h.left
        (by omega) (by omega)
    refine ⟨_, hwritten.snoc (by omega), ?_⟩
    have hcode : copySlots slot target (values ++ [v]).length ++ rest =
        copySlots slot target values.length ++
          .localGet (slot + values.length) :: .localSet (target + values.length) :: rest := by
      simp [copySlots, List.range_succ]
    -- the value is still where it was, as only later slots were written
    have hget : locals'[slot + values.length]? = some v := by
      rw [hwritten.others _ (.inl (by omega))]
      exact h.last
    rw [hcode]
    refine (hrun.trans (p.reaches_localGet _ _ _ _ hget)).trans (p.reaches_localSet _ _ _ _ _ ?_)
    rw [hwritten.size]
    omega

end Place

end WasmCompiler.Wasm
