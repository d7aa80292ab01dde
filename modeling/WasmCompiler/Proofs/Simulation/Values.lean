import WasmCompiler.Proofs.Simulation.Follows
import WasmCompiler.Proofs.Simulation.Variables
import WasmCompiler.Proofs.Typing.Rules

/-!
# Values on both sides

What the code of an expression may rely on (`Ready`, `Backed`) and what it leaves (`Leaves`).
Operators and memory cells are compared here, machine value by machine value.

* `follows_operate` is the statement about operators, with conversions before it;
* `follows_load` and `follows_store` are those about cells.
-/

namespace WasmCompiler

open Lowering
open Source (Datum Eval Interpreter Scopes Stop World)
open Wasm (Agrees Environment FloatOp InLocals Instr IntOp Machine Place Store Value ValueType
  Written)
open Wasm.Machine (Reaches)

/-! ### What code relies on and what it leaves

The two sides of every lemma about the code of an expression. -/

/-- A call of a function does what its evaluation does, if there is room. -/
def CallFollows (env : Environment) (x : Interpreter) (need : Nat) (callee : String)
    (signature : Signature) (index : Nat) : Prop :=
  ∀ (p : Place) (rest : List Instr) (stack : List Value) (locals : Array Value) (w : World)
    (args : List Datum), p.room + need ≤ env.stackRoom →
    List.Forall₂ HasType args signature.params →
    Follows env
      (p.machine (.call index :: rest) ((args.flatMap (·.values)).reverse ++ stack) locals w.store)
      (x.call callee args w) fun d w' m' =>
        m' = p.machine rest (d.values.reverse ++ stack) locals w'.store ∧
          d.type = signature.result ∧ HasType d signature.result

/-- A call of the allocator takes a new block, if there is room. -/
def ReserveFollows (env : Environment) (s : Source.Setting) (fuel need index : Nat) : Prop :=
  ∀ (p : Place) (rest : List Instr) (stack : List Value) (locals : Array Value) (w : World)
    (size : UInt32), p.room + need ≤ env.stackRoom →
    Follows env (p.machine (.call index :: rest) (.i32 size :: stack) locals w.store)
      (Source.reserve s fuel size w) fun block w' m' =>
        m' = p.machine rest (.i32 block :: stack) locals w'.store

/-- The functions of the host print. -/
def PrintFollows (env : Environment) (s : Source.Setting) : Prop :=
  ∀ (p : Place) (rest : List Instr) (stack : List Value) (locals : Array Value) (w : World)
    (type : DataType) (word : UInt32),
    Follows env (p.machine (printCode type :: rest) (.i32 word :: stack) locals w.store)
      (Source.print s type word w) fun _ w' m' => m' = p.machine rest stack locals w'.store

/-- The functions that code may call do what they should, if there is room. -/
structure Backed (env : Environment) (x : Interpreter) (need : Nat) (c : LoweringContext) :
    Prop where
  print : PrintFollows env x.setting
  calls : ∀ callee signature index, c.symbols.callable? callee = some signature →
    c.index? callee = some index → CallFollows env x need callee signature index
  reserve : ReserveFollows env x.setting x.fuel need c.allocator
  strings : x.setting.symbols.strings = c.symbols.strings

/-- The variables of an evaluation are in the locals, and there are enough scratch locals after
them. -/
structure Ready (c : LoweringContext) (scopes : Scopes) (s : List ValueType)
    (locals : Array Value) : Prop where
  visible : Shows locals scopes c.symbols.scopes
  slots : ∀ var ∈ c.symbols.scopes.flatten, var.slot + var.type.width ≤ c.scratchBase
  size : c.scratchBase + s.length ≤ locals.size

/-- The variables are where they were if only scratch locals have changed. -/
theorem Ready.agrees {c : LoweringContext} {scopes : Scopes} {s : List ValueType}
    {locals locals' : Array Value} {n : Nat} (h : Ready c scopes s locals)
    (hagrees : Agrees n locals locals') (hle : c.scratchBase ≤ n) : Ready c scopes s locals' :=
  ⟨h.visible.agrees hagrees fun var hvar => Nat.le_trans (h.slots var hvar) hle, h.slots,
    hagrees.size ▸ h.size⟩

/-- Where there are enough scratch locals for more, there are enough. -/
theorem Ready.of_grows {c : LoweringContext} {scopes : Scopes} {s s' : List ValueType}
    {locals : Array Value} (h : Ready c scopes s' locals) (hgrows : s <+: s') :
    Ready c scopes s locals :=
  ⟨h.visible, h.slots, Nat.le_trans (Nat.add_le_add_left hgrows.length_le _) h.size⟩

/-- The code of an expression has left a value of a type on the stack. Only scratch locals from
those handed out on have changed. -/
def Leaves (c : LoweringContext) (s : List ValueType) (p : Place) (rest : List Instr)
    (stack : List Value) (locals : Array Value) (e : Expr) (type : DataType) (d : Datum) (w : World)
    (m : Machine) : Prop :=
  ∃ locals', m = p.machine rest (d.values.reverse ++ stack) locals' w.store ∧
    Agrees (c.scratchBase + s.length) locals locals' ∧ HasType d type ∧
      (e.isEmptyArray = false → d.type = type)

/-- What a part leaves, the whole leaves. -/
theorem Leaves.extend {c : LoweringContext} {s s₁ : List ValueType} {p : Place} {rest : List Instr}
    {stack : List Value} {locals locals₁ : Array Value} {e : Expr} {type : DataType} {d : Datum}
    {w : World} {m : Machine} (h : Leaves c s₁ p rest stack locals₁ e type d w m)
    (hagrees : Agrees (c.scratchBase + s.length) locals locals₁) (hgrows : s <+: s₁) :
    Leaves c s p rest stack locals e type d w m := by
  obtain ⟨locals', hm, hagrees', htyped⟩ := h
  have hle : c.scratchBase + s.length ≤ c.scratchBase + s₁.length :=
    Nat.add_le_add_left hgrows.length_le _
  exact ⟨locals', hm, hagrees.trans (hagrees'.mono hle), htyped⟩

/-- The code of an expression does what the evaluation does. -/
def ExprFollows (env : Environment) (x : Interpreter) (need : Nat) (c : LoweringContext)
    (s : List ValueType) (e : Expr) (type : DataType) (code : List Instr) (s' : List ValueType) :
    Prop :=
  ∀ (p : Place) (rest : List Instr) (stack : List Value) (locals : Array Value) (w : World)
    (scopes : Scopes), p.room + need ≤ env.stackRoom → Ready c scopes s' locals →
    Follows env (p.machine (code ++ rest) stack locals w.store) (Source.evalExpr x scopes e w)
      (Leaves c s p rest stack locals e type)

/-! ### Operators

Integers, floats and conversions between them. -/

/-- An operand as an operation on floats or integers takes it. -/
def promote (float : Bool) : Value → Value
  | .i32 w => if float then .f32 (.ofInt w.toInt32.toInt) else .i32 w
  | .f32 x => .f32 x

/-- What follows the code of an operand. -/
def conversion (float : Bool) (type : DataType) : List Instr :=
  if float && !type.isFloat then [.f32ConvertI32S] else []

/-- A conversion stands behind the code of the operand. -/
theorem converted_eq (float : Bool) (code : List Instr) (type : DataType) :
    converted float ⟨code, type⟩ = code ++ conversion float type := by
  unfold converted conversion
  split <;> simp

/-- The machine value of a number tells its type. -/
theorem type_eq_f32_iff {v : Value} {type : DataType} (h : v.type = cellType type) :
    v.type = .f32 ↔ type.isFloat := by
  rw [h, cellType]
  split <;> simp_all

section Operators

variable {env : Environment} {p : Place} {rest : List Instr} {stack : List Value}
  {locals : Array Value} {w : World}

/-- An integer is converted where a float is wanted, and nothing else is. -/
theorem reaches_conversion {v : Value} {type : DataType} {float : Bool} {store : Store}
    (htype : v.type = cellType type) :
    Reaches env (p.machine (conversion float type ++ rest) (v :: stack) locals store)
      (p.machine rest (promote float v :: stack) locals store) := by
  have hiff := type_eq_f32_iff htype
  cases v with
  | i32 a =>
    have hfloat : type.isFloat = false := by simpa [Value.type] using hiff
    -- only a whole number beside a float is converted
    cases float with
    | true =>
      simp only [conversion, hfloat]
      exact p.reaches_f32ConvertI32S _ _ _ _ a
    | false => exact .refl
  | f32 a =>
    have hfloat : type.isFloat = true := by simpa [Value.type] using hiff
    simp only [conversion, hfloat, Bool.not_true, Bool.and_false]
    exact .refl

/-- A word is known by its signed value. -/
theorem toInt32_eq_iff {a : UInt32} {b : Int32} : a.toInt32 = b ↔ a = b.toUInt32 :=
  ⟨fun h => by rw [← h, UInt32.toUInt32_toInt32], fun h => by rw [h, Int32.toInt32_toUInt32]⟩

/-- Both notions of a quotient agree. -/
theorem quotient_eq (a b : UInt32) :
    Source.quotient a b =
      match IntOp.divS.apply a b with
      | .ok w => .ok w
      | .error cause => .error (.trap cause) := by
  have hmin : a.toInt32 = Int32.minValue ↔ a = 0x80000000 := toInt32_eq_iff
  have hone : b.toInt32 = -1 ↔ b = 0xffffffff := toInt32_eq_iff
  unfold Source.quotient IntOp.apply
  simp only [hmin, hone]
  split
  · rfl
  · split <;> rfl

/-- Each operator has its instruction, which traps where there is no result. -/
theorem integerOperator {op : BinaryOp} (hop : op.isLogical = false) :
    ∃ iop, operatorInstr? op false = some (.i32Op iop) ∧ ∀ a b,
      Source.integerOperation op a b =
        match iop.apply a b with
        | .ok w => .ok ⟨.i32, [.i32 w]⟩
        | .error cause => .error (.trap cause) := by
  cases op with
  | div =>
    refine ⟨.divS, rfl, fun a b => ?_⟩
    simp only [Source.integerOperation, quotient_eq]
    cases IntOp.divS.apply a b <;> rfl
  | and | or => cases hop
  | _ =>
    refine ⟨_, rfl, fun a b => ?_⟩
    simp [Source.integerOperation, IntOp.apply, Datum.ofBool, Value.ofBool]

/-- Each operator has its instruction on floats. A comparison gives an integer, and arithmetic a
float. -/
theorem floatOperator {op : BinaryOp} (hop : op.isLogical = false) :
    ∃ fop, operatorInstr? op true = some (.f32Op fop) ∧ ∀ a b,
      Source.floatOperation op a b =
        .ok ⟨if op.isArithmetic then .f64 else .i32, [fop.apply a b]⟩ ∧
      (fop.apply a b).type = if op.isArithmetic then .f32 else .i32 := by
  cases op with
  | and | or => cases hop
  | _ => exact ⟨_, rfl, fun _ _ => ⟨rfl, rfl⟩⟩

/-- An operator on floats, after the conversion of at most one of the operands. -/
theorem follows_floatOperation {op : BinaryOp} {type : DataType} {a b : Value}
    {x y : Number.Single} (hop : op.isLogical = false)
    (htype : type = if op.isArithmetic then .f64 else .i32)
    (hoperation : Source.operation op a b = Source.floatOperation op x y)
    (ha : promote true a = .f32 x) (hb : promote true b = .f32 y) :
    Follows env
      (p.machine ((operatorInstr? op true).toList ++ rest)
        (promote true b :: promote true a :: stack) locals w.store)
      ((Source.operation op a b).map (·, w)) fun d w' m' =>
        m' = p.machine rest (d.values.reverse ++ stack) locals w'.store ∧ d.type = type ∧
          HasType d type := by
  obtain ⟨fop, hinstr, hfop⟩ := floatOperator hop
  obtain ⟨hvalue, hvalueType⟩ := hfop x y
  rw [hoperation, hvalue, ha, hb, hinstr]
  refine ⟨_, p.reaches_f32Op _ _ _ _ fop x y, rfl, htype.symm, ?_⟩
  rw [HasType, htype, List.map_singleton, hvalueType]
  split <;> rfl

/-- The result of an operator on integers is an integer. -/
theorem follows_integerOperation {op : BinaryOp} {type : DataType} {x y : UInt32}
    (hop : op.isLogical = false) (htype : type = .i32) :
    Follows env
      (p.machine ((operatorInstr? op false).toList ++ rest) (.i32 y :: .i32 x :: stack) locals
        w.store)
      ((Source.operation op (.i32 x) (.i32 y)).map (·, w)) fun d w' m' =>
        m' = p.machine rest (d.values.reverse ++ stack) locals w'.store ∧ d.type = type ∧
          HasType d type := by
  subst htype
  obtain ⟨iop, hinstr, hiop⟩ := integerOperator hop
  rw [Source.operation, hiop, hinstr]
  cases happly : iop.apply x y with
  | ok w' => exact ⟨_, p.reaches_i32Op _ _ _ _ happly, rfl, rfl, rfl⟩
  | error cause => exact ⟨_, .refl, p.step_i32Op_trapped _ _ _ _ happly⟩

/-- An operator does on the machine what it does in the evaluation. -/
theorem follows_operate {op : BinaryOp} {left right type : DataType} {l r : Datum} {a b : Value}
    (hop : op.isLogical = false) (hresult : op.result? left right = some type)
    (hl : l.values = [a]) (hr : r.values = [b]) (ha : a.type = cellType left)
    (hb : b.type = cellType right) {float : Bool}
    (hfloat : float = (left.isFloat || right.isFloat)) :
    Follows env
      (p.machine ((operatorInstr? op float).toList ++ rest)
        (promote float b :: promote float a :: stack) locals w.store)
      (Source.operate op l r w) fun d w' m' =>
        m' = p.machine rest (d.values.reverse ++ stack) locals w'.store ∧ d.type = type ∧
          HasType d type := by
  have htype : type = if op.isArithmetic && float then .f64 else .i32 := by
    rcases BinaryOp.result?_cases hresult with ⟨harith, -, rfl⟩ | ⟨hcomp, -, rfl⟩ | ⟨hlogical, -⟩
    · rw [harith, Bool.true_and, hfloat]
    · have harith : op.isArithmetic = false := by cases op <;> first | rfl | cases hcomp
      rw [harith]
      rfl
    · rw [hop] at hlogical
      cases hlogical
  -- both operands are single values, so the operation is the one on them
  have hoperate : Source.operate op l r w = (Source.operation op a b).map (·, w) := by
    obtain ⟨_, _⟩ := l
    obtain ⟨_, _⟩ := r
    obtain rfl := hl
    obtain rfl := hr
    rfl
  rw [hoperate]
  -- an operand is a float exactly if its type says so
  have hfa := type_eq_f32_iff ha
  have hfb := type_eq_f32_iff hb
  cases a with
  | i32 a =>
    cases b with
    | i32 b =>
      have hfalse : float = false := by
        rw [hfloat, Bool.or_eq_false_iff]
        exact ⟨by simpa [Value.type] using hfa, by simpa [Value.type] using hfb⟩
      subst hfalse
      rw [Bool.and_false] at htype
      exact follows_integerOperation hop htype
    | f32 b =>
      have htrue : float = true := by
        rw [hfloat, hfb.mp rfl, Bool.or_true]
      subst htrue
      rw [Bool.and_true] at htype
      exact follows_floatOperation hop htype rfl rfl rfl
  | f32 a =>
    have htrue : float = true := by
      rw [hfloat, hfa.mp rfl, Bool.true_or]
    subst htrue
    rw [Bool.and_true] at htype
    cases b with
    | i32 b => exact follows_floatOperation hop htype rfl rfl rfl
    | f32 b => exact follows_floatOperation hop htype rfl rfl rfl

/-! ### Memory

Cells as an evaluation and as a machine see them. -/

/-- A cell holds a float or a word, as its type says. -/
theorem ofWord_cellType (type : DataType) (word : UInt32) :
    Value.ofWord (cellType type) word =
      if type.isFloat then .f32 ⟨word⟩ else .i32 word := by
  rw [cellType]
  split <;> rfl

theorem toWord?_eq {v : Value} {type : ValueType} (h : v.type = type) :
    v.toWord? type = some (Source.cellWord v) := by
  subst h
  cases v <;> rfl

/-- A cell inside the memory is read, and one outside of it traps. -/
theorem follows_load {type : DataType} (htype : type.Storable) {base : UInt32} {cell address : Nat}
    (haddress : address = base.toNat + cell * cellSize) :
    Follows env (p.machine (loadCell type cell :: rest) (.i32 base :: stack) locals w.store)
      (Source.load type address w) fun d w' m' =>
        m' = p.machine rest (d.values.reverse ++ stack) locals w'.store ∧ d.type = type ∧
          HasType d type := by
  subst haddress
  cases hword : w.memory.word? (base.toNat + cell * cellSize) with
  | some word =>
    rw [Source.load, hword]
    refine ⟨_, p.reaches_load _ _ _ _ hword, ?_, rfl, ?_⟩
    · rw [ofWord_cellType]
      rfl
    · rw [HasType, htype, cellType]
      split <;> rfl
  | none =>
    rw [Source.load, hword]
    exact ⟨_, .refl, p.step_load_trapped _ _ _ _ hword⟩

/-- A word inside the memory is written, and one outside of it traps. -/
theorem follows_storeWord {v : Value} {type : ValueType} (htype : v.type = type) {base : UInt32}
    {offset address : Nat} (haddress : address = base.toNat + offset) :
    Follows env
      (p.machine (.store type offset :: rest) (v :: .i32 base :: stack) locals w.store)
      (Source.storeWord address (Source.cellWord v) w) fun _ w' m' =>
        m' = p.machine rest stack locals w'.store := by
  subst haddress
  have hword := toWord?_eq htype
  cases hset : w.memory.setWord? (base.toNat + offset) (Source.cellWord v) with
  | some memory =>
    rw [Source.storeWord, hset]
    exact ⟨_, p.reaches_store _ _ _ _ hword hset, rfl⟩
  | none =>
    rw [Source.storeWord, hset]
    exact ⟨_, .refl, p.step_store_trapped _ _ _ _ hword hset⟩

/-- A value goes into a cell of a block. -/
theorem follows_store {d : Datum} {v : Value} {type : DataType} (hd : d.values = [v])
    (htype : v.type = cellType type) {base : UInt32} {cell address : Nat}
    (haddress : address = base.toNat + cell * cellSize) :
    Follows env
      (p.machine (storeCell type cell :: rest) (v :: .i32 base :: stack) locals w.store)
      (Source.store address d w) fun _ w' m' => m' = p.machine rest stack locals w'.store := by
  obtain ⟨_, _⟩ := d
  obtain rfl := hd
  exact follows_storeWord htype haddress

end Operators

end WasmCompiler
