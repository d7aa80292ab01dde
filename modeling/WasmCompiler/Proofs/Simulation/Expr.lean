import WasmCompiler.Proofs.Simulation.Values

/-!
# The code of expressions computes what they mean

One lemma for each form of expression: if the code of the parts does what their evaluation does, so
does the code of the whole. `ExprCode.follows` puts them together by induction over the derivation
that code belongs to an expression.

The forms differ in what they rest on:

* literals and variables on the locals as they are (`Ready`);
* operators on the arithmetic of both sides (`follows_operate`);
* calls and array literals on the functions that the code may call (`Backed`).

A tuple takes several places on the stack, so the lemmas about its elements speak of lists of
machine values.
-/

namespace WasmCompiler

open Lowering
open Source (Datum Eval Interpreter Scopes Stop World)
open Wasm (Agrees Environment InLocals Instr IntOp Machine Place Store Value ValueType Written)
open Wasm.Machine (Reaches)

section Forms

variable {env : Environment} {x : Interpreter} {need : Nat} {c : LoweringContext}
  {s s₁ s' : List ValueType} {location : Location}

-- There is a lemma for each form, so the equations of the evaluation are made here once.
attribute [local simp] Source.evalExpr

/-! ### Variables and literals

Forms without parts. -/

theorem exprFollows_integer (value : Int) :
    ExprFollows env x need c s (.integer location value) .i32
      [.i32Const (Int32.ofInt value).toUInt32] s := by
  intro p rest stack locals w scopes _ _
  rw [Source.evalExpr]
  refine .after (p.reaches_i32Const _ _ _ _ _) (.pure ?_)
  exact ⟨locals, rfl, .refl _ _, rfl, fun _ => rfl⟩

/-- A float literal is rounded to a single. -/
theorem exprFollows_float (value : Number.Double) :
    ExprFollows env x need c s (.float location value) .f64 [.f32Const (.ofDouble value)] s := by
  intro p rest stack locals w scopes _ _
  rw [Source.evalExpr]
  refine .after (p.reaches_f32Const _ _ _ _ _) (.pure ?_)
  exact ⟨locals, rfl, .refl _ _, rfl, fun _ => rfl⟩

/-- A string literal is the address of its record. -/
theorem exprFollows_string (hb : Backed env x need c) {text : String} {offset : Nat}
    (hoffset : c.symbols.stringOffset? text = some offset) :
    ExprFollows env x need c s (.string location text) .string [.i32Const (.ofNat offset)] s := by
  intro p rest stack locals w scopes _ _
  have hoffset' : x.setting.symbols.stringOffset? text = some offset := by
    rw [SymbolTable.stringOffset?, hb.strings]
    exact hoffset
  rw [Source.evalExpr, hoffset']
  refine .after (p.reaches_i32Const _ _ _ _ _) (.pure ?_)
  exact ⟨locals, rfl, .refl _ _, rfl, fun _ => rfl⟩

theorem exprFollows_variable {name : String} {var : Variable}
    (hvar : c.symbols.lookupVariable? name = some var) :
    ExprFollows env x need c s (.identifier location name) var.type
      (getSlots var.slot var.type.width) s := by
  intro p rest stack locals w scopes _ hready
  obtain ⟨d, hlookup, hholds⟩ := hready.visible.lookup hvar
  rw [Source.evalExpr, hlookup, ← hholds.values.length]
  refine .after (p.reaches_getSlots _ _ _ hholds.slots) (.pure ?_)
  exact ⟨locals, rfl, .refl _ _, hholds.values, fun _ => hholds.type⟩

/-! ### Operators

Logical operators are conditionals, the others take their operands from the stack. -/

/-- Where the type is not one of arrays, the expression is not an array literal. -/
theorem isEmptyArray_of_exprCode {e : Expr} {type : DataType} {code : List Instr}
    (h : ExprCode c s e type code s') (htype : type.isArray = false) : e.isEmptyArray = false := by
  cases h with
  | emptyArray => cases htype
  | _ => rfl

/-- There is no instruction that negates a word, so it is multiplied by minus one. -/
theorem neg_eq_mul (w : UInt32) : -w = w * 0xffffffff := by
  have h : (0xffffffff : UInt32) = -1 := rfl
  rw [h, UInt32.mul_neg, UInt32.mul_one]

/-- A number is negated by the code for its type. -/
theorem exprFollows_negate {operand : Expr} {type : DataType} {code : List Instr}
    (hnumeric : type.isNumeric) (hcode : ExprCode c s operand type code s')
    (hoperand : ExprFollows env x need c s operand type code s') :
    ExprFollows env x need c s (.unary location .negate operand) type (code ++ negateCode type)
      s' := by
  intro p rest stack locals w scopes hroom hready
  rw [Source.evalExpr, List.append_assoc]
  refine .bind (hoperand p _ stack locals w scopes hroom hready) ?_
  rintro ⟨type', values⟩ w' _ ⟨locals', rfl, hagrees, htyped, hknown⟩
  -- a whole number is multiplied by minus one, since there is no instruction that negates it
  match type, hnumeric with
  | .i32, _ =>
    obtain rfl : type' = .i32 := hknown (isEmptyArray_of_exprCode hcode rfl)
    obtain ⟨a, rfl⟩ := eq_of_map_type_i32 htyped
    refine .after ((p.reaches_i32Const _ _ _ _ _).trans (p.reaches_i32Op _ _ _ _ rfl)) (.pure ?_)
    refine ⟨locals', ?_, hagrees, rfl, fun _ => rfl⟩
    rw [neg_eq_mul]
    rfl
  | .f64, _ =>
    obtain rfl : type' = .f64 := hknown (isEmptyArray_of_exprCode hcode rfl)
    obtain ⟨a, rfl⟩ := eq_of_map_type_f32 htyped
    refine .after (p.reaches_f32Neg _ _ _ _ _) (.pure ?_)
    exact ⟨locals', rfl, hagrees, rfl, fun _ => rfl⟩

/-- The second operand of a logical operator, in the block where it is evaluated. -/
theorem follows_normalized {e right : Expr} {r : List Instr}
    (hright : ExprFollows env x need c s right .i32 r s') {p : Place} {rest : List Instr}
    {stack : List Value} {locals : Array Value} {w : World} {scopes : Scopes}
    (hroom : p.room + need ≤ env.stackRoom) (hready : Ready c scopes s' locals) :
    Follows env
      ((p.within (Place.blockLabel 1 rest stack)).machine (normalized r) stack locals w.store)
      ((do
        let d ← Source.evalExpr x scopes right
        return .ofBool ((← d.word) ≠ 0) : Eval Datum) w)
      (Leaves c s p rest stack locals e .i32) := by
  let q := p.within (Place.blockLabel 1 rest stack)
  refine .bind (hright q _ stack locals w scopes hroom hready) ?_
  rintro d w' _ ⟨locals', rfl, hagrees, htyped, -⟩
  obtain ⟨a, ha, hword⟩ := htyped.word rfl
  refine .bind_of_ok (hword w') ?_
  rw [ha]
  have hne : IntOp.ne.apply a 0 = .ok (if a ≠ 0 then 1 else 0) := rfl
  refine .after (((q.reaches_i32Const _ _ _ _ _).trans (q.reaches_i32Op _ _ _ _ hne)).trans
    (p.reaches_end _ _ _ _)) (.pure ?_)
  refine ⟨locals', ?_, hagrees, rfl, fun _ => rfl⟩
  simp only [Datum.ofBool, Value.ofBool, decide_eq_true_eq]
  rfl

/-- `a && b`: the second operand is in the branch that is taken if the first is not zero. -/
theorem exprFollows_and {left right : Expr} {l r : List Instr} (hgrows : s <+: s₁)
    (hgrows' : s₁ <+: s') (hleft : ExprFollows env x need c s left .i32 l s₁)
    (hright : ExprFollows env x need c s₁ right .i32 r s') :
    ExprFollows env x need c s (.binary location .and left right) .i32 (andCode l r) s' := by
  intro p rest stack locals w scopes hroom hready
  rw [Source.evalExpr, andCode, List.append_assoc]
  refine .bind (hleft p _ stack locals w scopes hroom (hready.of_grows hgrows')) ?_
  rintro d w' _ ⟨locals', rfl, hagrees, htyped, -⟩
  obtain ⟨a, ha, hword⟩ := htyped.word rfl
  refine .bind_of_ok (hword w') ?_
  rw [ha]
  -- where the left operand is false the right one is not evaluated
  by_cases hzero : a = 0
  · subst hzero
    rw [if_pos rfl]
    refine .after ((p.reaches_branch_not_taken _ _ _ _).trans
      ((Place.reaches_i32Const _ _ _ _ _ _).trans (p.reaches_end _ _ _ _))) (.pure ?_)
    exact ⟨locals', rfl, hagrees, rfl, fun _ => rfl⟩
  · rw [if_neg hzero]
    refine .after (p.reaches_branch_taken _ _ _ _ hzero) ?_
    have hready' := hready.agrees hagrees (Nat.le_add_right _ _)
    exact (follows_normalized hright hroom hready').weaken fun d w m h => h.extend hagrees hgrows

/-- `a || b`: the second operand is in the branch that is taken if the first is zero. -/
theorem exprFollows_or {left right : Expr} {l r : List Instr} (hgrows : s <+: s₁)
    (hgrows' : s₁ <+: s') (hleft : ExprFollows env x need c s left .i32 l s₁)
    (hright : ExprFollows env x need c s₁ right .i32 r s') :
    ExprFollows env x need c s (.binary location .or left right) .i32 (orCode l r) s' := by
  intro p rest stack locals w scopes hroom hready
  rw [Source.evalExpr, orCode, List.append_assoc]
  refine .bind (hleft p _ stack locals w scopes hroom (hready.of_grows hgrows')) ?_
  rintro d w' _ ⟨locals', rfl, hagrees, htyped, -⟩
  obtain ⟨a, ha, hword⟩ := htyped.word rfl
  refine .bind_of_ok (hword w') ?_
  rw [ha]
  -- where the left operand is true the right one is not evaluated
  by_cases hzero : a = 0
  · subst hzero
    rw [if_pos rfl]
    refine .after (p.reaches_branch_not_taken _ _ _ _) ?_
    have hready' := hready.agrees hagrees (Nat.le_add_right _ _)
    exact (follows_normalized hright hroom hready').weaken fun d w m h => h.extend hagrees hgrows
  · rw [if_neg hzero]
    refine .after ((p.reaches_branch_taken _ _ _ _ hzero).trans
      ((Place.reaches_i32Const _ _ _ _ _ _).trans (p.reaches_end _ _ _ _))) (.pure ?_)
    exact ⟨locals', rfl, hagrees, rfl, fun _ => rfl⟩

/-- Both operands are converted to the type of the operation, if they have to be. -/
theorem exprFollows_operator {op : BinaryOp} {left right : Expr} {tl tr type : DataType}
    {l r : List Instr} (hop : op.isLogical = false) (hresult : op.result? tl tr = some type)
    (hl : tl.Storable) (hr : tr.Storable) (hgrows : s <+: s₁) (hgrows' : s₁ <+: s')
    (hleft : ExprFollows env x need c s left tl l s₁)
    (hright : ExprFollows env x need c s₁ right tr r s') :
    ExprFollows env x need c s (.binary location op left right) type
      (arithmeticCode op ⟨l, tl⟩ ⟨r, tr⟩) s' := by
  intro p rest stack locals w scopes hroom hready
  -- the two operators that may skip an operand have rules of their own
  have heval : Source.evalExpr x scopes (.binary location op left right) = (do
      let l ← Source.evalExpr x scopes left
      let r ← Source.evalExpr x scopes right
      Source.operate op l r) := by
    cases op with
    | and | or => cases hop
    | _ => rfl
  rw [heval]
  simp only [arithmeticCode, converted_eq, List.append_assoc]
  refine .bind (hleft p _ stack locals w scopes hroom (hready.of_grows hgrows')) ?_
  rintro dl w₁ _ ⟨locals₁, rfl, hagrees, htypedl, -⟩
  obtain ⟨a, ha, hatype⟩ := htypedl.single hl
  rw [ha]
  -- each operand is converted right after its own code, before the other one is evaluated
  refine .after (reaches_conversion hatype) ?_
  have hready₁ := hready.agrees hagrees (Nat.le_add_right _ _)
  refine .bind (hright p _ _ locals₁ w₁ scopes hroom hready₁) ?_
  rintro dr w₂ _ ⟨locals₂, rfl, hagrees', htypedr, -⟩
  obtain ⟨b, hb, hbtype⟩ := htypedr.single hr
  rw [hb]
  refine .after (reaches_conversion hbtype) ?_
  refine (follows_operate hop hresult ha hb hatype hbtype rfl).weaken ?_
  rintro d w' m' ⟨rfl, htype, htyped⟩
  exact Leaves.extend ⟨locals₂, rfl, hagrees', htyped, fun _ => htype⟩ hagrees hgrows

/-! ### Several expressions

Arguments and elements stay on the stack, items go into memory. -/

/-- The code of several expressions does what their evaluation does. -/
def ExprsFollow (env : Environment) (x : Interpreter) (need : Nat) (c : LoweringContext)
    (s : List ValueType) (es : List Expr) (types : List DataType) (code : List Instr)
    (s' : List ValueType) : Prop :=
  ∀ (p : Place) (rest : List Instr) (stack : List Value) (locals : Array Value) (w : World)
    (scopes : Scopes), p.room + need ≤ env.stackRoom → Ready c scopes s' locals →
    Follows env (p.machine (code ++ rest) stack locals w.store) (Source.evalAll x scopes es w)
      fun ds w' m' => ∃ locals',
        m' = p.machine rest ((ds.flatMap (·.values)).reverse ++ stack) locals' w'.store ∧
          Agrees (c.scratchBase + s.length) locals locals' ∧ List.Forall₂ HasType ds types ∧
            ((∀ e ∈ es, e.isEmptyArray = false) → ds.map (·.type) = types)

/-- The code of an array's items does what their evaluation does; the block is in a local. -/
def ItemsFollow (env : Environment) (x : Interpreter) (need : Nat) (c : LoweringContext)
    (base cell : Nat) (element : DataType) (s : List ValueType) (es : List Expr)
    (code : List Instr) (s' : List ValueType) : Prop :=
  ∀ (p : Place) (rest : List Instr) (stack : List Value) (locals : Array Value) (w : World)
    (scopes : Scopes) (block : UInt32), p.room + need ≤ env.stackRoom → Ready c scopes s' locals →
    base < c.scratchBase + s.length → locals[base]? = some (.i32 block) →
    Follows env (p.machine (code ++ rest) stack locals w.store)
      (Source.evalItems x scopes block cell es w) fun types w' m' => ∃ locals',
        m' = p.machine rest stack locals' w'.store ∧
          Agrees (c.scratchBase + s.length) locals locals' ∧
            ∀ e ∈ es.head?, e.isEmptyArray = false → types.head? = some element

theorem exprsFollow_nil : ExprsFollow env x need c s [] [] [] s := by
  intro p rest stack locals w scopes _ _
  rw [Source.evalAll]
  exact .pure ⟨locals, rfl, .refl _ _, .nil, fun _ => rfl⟩

/-- The values of the first expression lie below those of the others. -/
theorem exprsFollow_cons {e : Expr} {es : List Expr} {type : DataType} {types : List DataType}
    {code rest : List Instr} (hgrows : s <+: s₁) (hgrows' : s₁ <+: s')
    (he : ExprFollows env x need c s e type code s₁)
    (hes : ExprsFollow env x need c s₁ es types rest s') :
    ExprsFollow env x need c s (e :: es) (type :: types) (code ++ rest) s' := by
  intro p after stack locals w scopes hroom hready
  rw [Source.evalAll, List.append_assoc]
  refine .bind (he p _ stack locals w scopes hroom (hready.of_grows hgrows')) ?_
  rintro d w₁ _ ⟨locals₁, rfl, hagrees, htyped, hknown⟩
  have hready₁ := hready.agrees hagrees (Nat.le_add_right _ _)
  refine .bind (hes p _ _ locals₁ w₁ scopes hroom hready₁) ?_
  rintro ds w' _ ⟨locals', rfl, hagrees', htypes, hknowns⟩
  have hle : c.scratchBase + s.length ≤ c.scratchBase + s₁.length :=
    Nat.add_le_add_left hgrows.length_le _
  refine .pure ⟨locals', ?_, hagrees.trans (hagrees'.mono hle), .cons htyped htypes, ?_⟩
  · rw [List.flatMap_cons, List.reverse_append, List.append_assoc]
  · intro hall
    rw [List.forall_mem_cons] at hall
    rw [List.map_cons, hknown hall.1, hknowns hall.2]

theorem itemsFollow_nil {base cell : Nat} {element : DataType} :
    ItemsFollow env x need c base cell element s [] [] s := by
  intro p rest stack locals w scopes block _ _ _ _
  rw [Source.evalItems]
  exact .pure ⟨locals, rfl, .refl _ _, by simp⟩

/-- The item goes into its cell, and the others into those behind it. -/
theorem itemsFollow_cons {base cell : Nat} {element : DataType} {e : Expr} {es : List Expr}
    {code rest : List Instr} (helement : element.Storable) (hgrows : s <+: s₁)
    (hgrows' : s₁ <+: s') (he : ExprFollows env x need c s e element code s₁)
    (hes : ItemsFollow env x need c base (cell + 1) element s₁ es rest s') :
    ItemsFollow env x need c base cell element s (e :: es)
      (.localGet base :: code ++ storeCell element cell :: rest) s' := by
  intro p after stack locals w scopes block hroom hready hbase hblock
  have hcode : (.localGet base :: code ++ storeCell element cell :: rest) ++ after =
      .localGet base :: (code ++ storeCell element cell :: (rest ++ after)) := by
    simp
  rw [Source.evalItems, hcode]
  refine .after (p.reaches_localGet _ _ _ _ hblock) ?_
  refine .bind (he p _ _ locals w scopes hroom (hready.of_grows hgrows')) ?_
  rintro d w₁ _ ⟨locals₁, rfl, hagrees, htyped, hknown⟩
  obtain ⟨v, hv, hvtype⟩ := htyped.single helement
  rw [hv]
  refine .bind (follows_store hv hvtype rfl) ?_
  rintro _ w₂ _ rfl
  have hready₁ := hready.agrees hagrees (Nat.le_add_right _ _)
  have hle : c.scratchBase + s.length ≤ c.scratchBase + s₁.length :=
    Nat.add_le_add_left hgrows.length_le _
  -- the base is a slot below the scratch of the items, so that it still holds the block
  have hblock₁ : locals₁[base]? = some (.i32 block) := by
    rw [hagrees.below base hbase]
    exact hblock
  refine .bind (hes p _ _ locals₁ w₂ scopes block hroom hready₁ (by omega) hblock₁) ?_
  rintro types w' _ ⟨locals', rfl, hagrees', -⟩
  refine .pure ⟨locals', rfl, hagrees.trans (hagrees'.mono hle), ?_⟩
  -- the element type is that of the first item, where that is known
  intro e' he' hnotEmpty
  obtain rfl : e = e' := by simpa using he'
  rw [List.head?_cons, hknown hnotEmpty]

/-! ### Calls, fields and elements

What reads memory or calls a function. -/

/-- The arguments are on the stack, and the function takes them from there. -/
theorem exprFollows_call (hb : Backed env x need c) {callee : String} {args : List Expr}
    {signature : Signature} {index : Nat} {code : List Instr}
    (hcallee : c.symbols.callable? callee = some signature) (hindex : c.index? callee = some index)
    (hargs : ExprsFollow env x need c s args signature.params code s') :
    ExprFollows env x need c s (.call location callee args) signature.result
      (code ++ [.call index]) s' := by
  intro p rest stack locals w scopes hroom hready
  rw [Source.evalExpr, List.append_assoc]
  refine .bind (hargs p _ stack locals w scopes hroom hready) ?_
  rintro ds w' _ ⟨locals', rfl, hagrees, htypes, -⟩
  refine (hb.calls callee signature index hcallee hindex p rest stack locals' w' ds hroom
    htypes).weaken ?_
  rintro d w'' _ ⟨rfl, htype, htyped⟩
  exact ⟨locals', rfl, hagrees, htyped, fun _ => htype⟩

/-- A field is loaded from its cell, at a fixed distance from the address. -/
theorem exprFollows_field {base : Expr} {name struct : String} {fields : List (String × DataType)}
    {i : Nat} {type : DataType} {code : List Instr}
    (hfield : DataType.lookupField name fields = some (i, type)) (htype : type.Storable)
    (hcode : ExprCode c s base (.struct struct fields) code s')
    (hbase : ExprFollows env x need c s base (.struct struct fields) code s') :
    ExprFollows env x need c s (.member location base name) type (code ++ [loadCell type i])
      s' := by
  intro p rest stack locals w scopes hroom hready
  rw [Source.evalExpr, List.append_assoc]
  refine .bind (hbase p _ stack locals w scopes hroom hready) ?_
  rintro d w' _ ⟨locals', rfl, hagrees, htyped, hknown⟩
  obtain ⟨a, ha, hword⟩ := htyped.word rfl
  -- the value has the type of the struct, so its field is in the same cell
  have hfield' : d.type.field? name = some (i, type) := by
    rw [hknown (isEmptyArray_of_exprCode hcode rfl)]
    exact hfield
  rw [hfield', ha]
  refine .bind_of_ok (hword w') ((follows_load htype rfl).weaken ?_)
  rintro d' w'' _ ⟨rfl, htype', htyped'⟩
  exact ⟨locals', rfl, hagrees, htyped', fun _ => htype'⟩

/-- The address of an element is computed from the index. -/
theorem exprFollows_element {base index : Expr} {type : DataType} {b i : List Instr}
    (htype : type.Storable) (hknown : base.isEmptyArray = false) (hgrows : s <+: s₁)
    (hgrows' : s₁ <+: s') (hbase : ExprFollows env x need c s base (.array type) b s₁)
    (hindex : ExprFollows env x need c s₁ index .i32 i s') :
    ExprFollows env x need c s (.index location base index) type (b ++ i ++ elementCode type)
      s' := by
  intro p rest stack locals w scopes hroom hready
  rw [Source.evalExpr, List.append_assoc, List.append_assoc]
  refine .bind (hbase p _ stack locals w scopes hroom (hready.of_grows hgrows')) ?_
  rintro d w₁ _ ⟨locals₁, rfl, hagrees, htyped, hdtype⟩
  obtain ⟨a, ha, hword⟩ := htyped.word rfl
  rw [hdtype hknown, ha]
  have hready₁ := hready.agrees hagrees (Nat.le_add_right _ _)
  refine .bind (hindex p _ _ locals₁ w₁ scopes hroom hready₁) ?_
  rintro di w₂ _ ⟨locals₂, rfl, hagrees', htypedi, -⟩
  obtain ⟨k, hk, hwordi⟩ := htypedi.word rfl
  rw [hk]
  refine .bind_of_ok (hword w₂) (.bind_of_ok (hwordi w₂) ?_)
  -- the index is scaled and added to the address
  refine .after ((p.reaches_i32Const _ _ _ _ _).trans ((p.reaches_i32Op _ _ _ _ rfl).trans
    (p.reaches_i32Op _ _ _ _ rfl))) ?_
  refine (follows_load htype ?_).weaken ?_
  · rw [Source.elementAddress, Nat.one_mul]
  rintro d' w' _ ⟨rfl, htype', htyped'⟩
  exact Leaves.extend ⟨locals₂, rfl, hagrees', htyped', fun _ => htype'⟩ hagrees hgrows

/-! ### Tuples

Values of several machine values. -/

/-- The machine values of an element stand together in those of the tuple. -/
theorem hasType_element {d : Datum} {elements : List DataType} {i : Nat} {type : DataType}
    (h : HasType d (.tuple elements)) (htype : elements[i]? = some type) :
    HasType ⟨type, (d.values.drop (elementStart elements i)).take type.width⟩ type := by
  have htypes : d.values.map (·.type) = DataType.machineTypesAll elements := h
  rw [DataType.machineTypesAll_split htype] at htypes
  rw [HasType, List.map_take, List.map_drop, htypes, elementStart, List.drop_left, DataType.width,
    List.take_left]

/-- A tuple is in slots side by side; the code reads those of the element. -/
theorem reaches_element {d : Datum} {elements : List DataType} {i slot : Nat} {type : DataType}
    {p : Place} {rest : List Instr} {stack : List Value} {locals : Array Value} {store : Store}
    (h : HasType d (.tuple elements)) (htype : elements[i]? = some type)
    (hslots : InLocals locals slot d.values) :
    Reaches env
      (p.machine (getSlots (slot + elementStart elements i) type.width ++ rest) stack locals store)
      (p.machine rest (((d.values.drop (elementStart elements i)).take type.width).reverse ++ stack)
        locals store) := by
  have hwidth := (hasType_element h htype).length
  have hslice := hslots.slice (elementStart elements i) type.width
  nth_rewrite 1 [← hwidth]
  exact p.reaches_getSlots rest stack store hslice

/-- An element that is there is cut out of the machine values. -/
theorem element_eq {elements : List DataType} {values : List Value} {i : Nat} {type : DataType}
    (htype : elements[i]? = some type) :
    Source.element elements values i =
      pure ⟨type, (values.drop (elementStart elements i)).take type.width⟩ := by
  unfold Source.element
  rw [htype]
  rfl

/-- The element of a tuple variable is in some of its slots. -/
theorem exprFollows_component {l : Location} {name : String} {var : Variable}
    {elements : List DataType} {index : Expr} {i : Nat} {type : DataType}
    (hvar : c.symbols.lookupVariable? name = some var) (htuple : var.type = .tuple elements)
    (hindex : index.elementIndex? elements.length = some i) (htype : elements[i]? = some type) :
    ExprFollows env x need c s (.index location (.identifier l name) index) type
      (getSlots (var.slot + elementStart elements i) type.width) s := by
  intro p rest stack locals w scopes _ hready
  obtain ⟨d, hlookup, hholds⟩ := hready.visible.lookup hvar
  have hd : d.type = .tuple elements := hholds.type.trans htuple
  have htyped : HasType d (.tuple elements) := htuple ▸ hholds.values
  have heval : Source.evalExpr x scopes (.index location (.identifier l name) index) w =
      .ok (⟨type, (d.values.drop (elementStart elements i)).take type.width⟩, w) := by
    rw [Source.evalExpr, Source.evalExpr, hlookup]
    simp only [pure_bind, hd, hindex, element_eq htype]
    rfl
  rw [heval]
  exact ⟨_, reaches_element htyped htype hholds.slots, locals, rfl, .refl _ _,
    hasType_element htyped htype, fun _ => rfl⟩

/-- A tuple that is not in a variable is put into scratch locals first. -/
theorem exprFollows_spilled {base : Expr} {elements : List DataType} {index : Expr} {i : Nat}
    {type : DataType} {code : List Instr} (hindex : index.elementIndex? elements.length = some i)
    (htype : elements[i]? = some type) (hgrows : s <+: s')
    (hcode : ExprCode c s base (.tuple elements) code s')
    (hbase : ExprFollows env x need c s base (.tuple elements) code s') :
    ExprFollows env x need c s (.index location base index) type
      (code ++ (setSlots (c.scratchBase + s'.length) (DataType.machineTypesAll elements).length ++
        getSlots (c.scratchBase + s'.length + elementStart elements i) type.width))
      (s' ++ DataType.machineTypesAll elements) := by
  intro p rest stack locals w scopes hroom hready
  rw [Source.evalExpr, List.append_assoc, List.append_assoc]
  refine .bind (hbase p _ stack locals w scopes hroom
    (hready.of_grows (List.prefix_append _ _))) ?_
  rintro d w' _ ⟨locals₁, rfl, hagrees, htyped, hknown⟩
  have hd : d.type = .tuple elements := hknown (isEmptyArray_of_exprCode hcode rfl)
  have hwidth : d.values.length = (DataType.machineTypesAll elements).length := htyped.length
  simp only [hd, hindex, element_eq htype]
  -- the slots for the spilled tuple lie behind the scratch that the tuple itself took
  have hsize : c.scratchBase + s'.length + d.values.length ≤ locals₁.size := by
    have := hready.size
    rw [List.length_append] at this
    rw [hagrees.size]
    omega
  obtain ⟨locals₂, hwritten, hrun⟩ := p.reaches_setSlots
    (getSlots (c.scratchBase + s'.length + elementStart elements i) type.width ++ rest) stack
    w'.store hsize
  rw [hwidth] at hrun
  refine .after (hrun.trans (reaches_element htyped htype hwritten.holds)) (.pure ?_)
  refine ⟨locals₂, rfl, ?_, hasType_element htyped htype, fun _ => rfl⟩
  have hle : c.scratchBase + s.length ≤ c.scratchBase + s'.length :=
    Nat.add_le_add_left hgrows.length_le _
  exact hagrees.trans (hwritten.agrees hle)

/-- The machine values of several values have the types of all of them. -/
theorem map_type_flatMap {ds : List Datum} {types : List DataType}
    (h : List.Forall₂ HasType ds types) :
    (ds.flatMap (·.values)).map (·.type) = DataType.machineTypesAll types := by
  induction h with
  | nil => rfl
  | cons hd _ ih =>
    rw [List.flatMap_cons, List.map_append, ih, DataType.machineTypesAll, hd]

/-- The elements are left where they are. -/
theorem exprFollows_tuple {items : List Expr} {types : List DataType} {code : List Instr}
    (hknown : ∀ item ∈ items, item.isEmptyArray = false)
    (hitems : ExprsFollow env x need c s items types code s') :
    ExprFollows env x need c s (.tuple location items) (.tuple types) code s' := by
  intro p rest stack locals w scopes hroom hready
  rw [Source.evalExpr]
  refine .bind (hitems p rest stack locals w scopes hroom hready) ?_
  rintro ds w' _ ⟨locals', rfl, hagrees, htypes, hknowns⟩
  refine .pure ⟨locals', rfl, hagrees, map_type_flatMap htypes, fun _ => ?_⟩
  rw [hknowns hknown]

/-! ### Arrays

The one form of expression that takes memory. -/

/-- The header of an array: its block is reserved, kept in a local and given its length. -/
theorem follows_arrayHeader (hreserve : ReserveFollows env x.setting x.fuel need c.allocator)
    {p : Place} {rest : List Instr} {stack : List Value} {locals : Array Value} {w : World}
    {base count : Nat}
    (hroom : p.room + need ≤ env.stackRoom) (hbase : base < locals.size) :
    Follows env (p.machine (arrayHeader c base count ++ rest) stack locals w.store)
      ((do
        let block ← Source.reserve x.setting x.fuel (.ofNat (cellSize * (count + 1)))
        Source.storeWord block.toNat (.ofNat count)
        return block : Eval UInt32) w) fun block w' m' =>
          m' = p.machine rest stack (locals.setIfInBounds base (.i32 block)) w'.store := by
  refine .after (p.reaches_i32Const _ _ _ _ _) ?_
  refine .bind (hreserve p _ stack locals w _ hroom) ?_
  rintro block w₁ _ rfl
  -- the address stays on the stack for the word with the number of items
  refine .after ((p.reaches_localTee _ _ _ _ _ hbase).trans (p.reaches_i32Const _ _ _ _ _)) ?_
  refine .bind (follows_storeWord (v := .i32 (.ofNat count)) rfl (Nat.add_zero _).symm) ?_
  rintro _ w₂ _ rfl
  exact .pure rfl

/-- The header comes first, then the items, and the address at the end. -/
theorem exprFollows_array (hreserve : ReserveFollows env x.setting x.fuel need c.allocator)
    {items : List Expr} {element : DataType} {code : List Instr} (hgrows : s ++ [.i32] <+: s')
    (hknown : ∀ item ∈ items.head?, item.isEmptyArray = false)
    (hitems : ItemsFollow env x need c (c.scratchBase + s.length) 1 element (s ++ [.i32]) items
      code s') :
    ExprFollows env x need c s (.array location items) (.array element)
      (arrayHeader c (c.scratchBase + s.length) items.length ++ code ++
        [.localGet (c.scratchBase + s.length)]) s' := by
  intro p rest stack locals w scopes hroom hready
  have hlength : (s ++ [ValueType.i32]).length = s.length + 1 := List.length_append
  have hbase : c.scratchBase + s.length < locals.size := by
    have := hgrows.length_le
    have := hready.size
    omega
  have heval : Source.evalExpr x scopes (.array location items) = (do
      let block ← (do
        let block ← Source.reserve x.setting x.fuel (.ofNat (cellSize * (items.length + 1)))
        Source.storeWord block.toNat (.ofNat items.length)
        return block : Eval UInt32)
      let types ← Source.evalItems x scopes block 1 items
      return ⟨.array (types.headD .none), [.i32 block]⟩) := by
    simp only [Source.evalExpr, bind_assoc, pure_bind]
  rw [heval, List.append_assoc, List.append_assoc]
  refine .bind (follows_arrayHeader hreserve hroom hbase) ?_
  rintro block w₁ _ rfl
  -- the block stays in its local, as the items only use scratch locals after it
  have hagrees : Agrees (c.scratchBase + s.length) locals
      (locals.setIfInBounds (c.scratchBase + s.length) (.i32 block)) :=
    ⟨by simp, fun i hi => Array.getElem?_setIfInBounds_ne (by omega)⟩
  have hready₁ := hready.agrees hagrees (Nat.le_add_right _ _)
  have hblock : (locals.setIfInBounds (c.scratchBase + s.length) (.i32 block))[
      c.scratchBase + s.length]? = some (.i32 block) := by
    simp [hbase]
  refine .bind (hitems p _ _ _ w₁ scopes block hroom hready₁ (by omega) hblock) ?_
  rintro types w' _ ⟨locals', rfl, hagrees', htypes⟩
  have hblock' : locals'[c.scratchBase + s.length]? = some (.i32 block) := by
    rw [hagrees'.below _ (by omega), hblock]
  refine .after (p.reaches_localGet _ _ _ _ hblock') (.pure ?_)
  refine ⟨locals', rfl, hagrees.trans (hagrees'.mono (by omega)), rfl, fun hnotEmpty => ?_⟩
  cases items with
  | nil => cases hnotEmpty
  | cons item items =>
    have hhead := htypes item rfl (hknown item rfl)
    rw [List.headD_eq_head?_getD, hhead, Option.getD_some]

end Forms

/-! ### All forms

The inductions over the code of an expression, of several, and of items. -/

namespace Lowering

variable {env : Environment} {x : Interpreter} {need : Nat} {c : LoweringContext}

mutual

/-- The code of an expression does what its evaluation does. -/
theorem ExprCode.follows (hb : Backed env x need c) {s s' : List ValueType} {e : Expr}
    {type : DataType} {code : List Instr} :
    ExprCode c s e type code s' → ExprFollows env x need c s e type code s'
  | .integer .. => exprFollows_integer _
  | .float => exprFollows_float _
  | .string hoffset => exprFollows_string hb hoffset
  | .variable hvar => exprFollows_variable hvar
  | .negate hnumeric hoperand => exprFollows_negate hnumeric hoperand (hoperand.follows hb)
  | .and hleft hright =>
    exprFollows_and hleft.scratch_grows hright.scratch_grows (hleft.follows hb) (hright.follows hb)
  | .or hleft hright =>
    exprFollows_or hleft.scratch_grows hright.scratch_grows (hleft.follows hb) (hright.follows hb)
  | .operator hop hresult hl hr hleft hright =>
    exprFollows_operator hop hresult hl hr hleft.scratch_grows hright.scratch_grows
      (hleft.follows hb) (hright.follows hb)
  | .call hcallee hindex hargs => exprFollows_call hb hcallee hindex (hargs.follows hb)
  | .field hfield htype hbase => exprFollows_field hfield htype hbase (hbase.follows hb)
  | .element htype hknown hbase hindex =>
    exprFollows_element htype hknown hbase.scratch_grows hindex.scratch_grows (hbase.follows hb)
      (hindex.follows hb)
  | .component hvar htuple hindex htype => exprFollows_component hvar htuple hindex htype
  | .spilled hindex htype hbase =>
    exprFollows_spilled hindex htype hbase.scratch_grows hbase (hbase.follows hb)
  | .emptyArray => exprFollows_array hb.reserve (List.prefix_refl _) (by simp) itemsFollow_nil
  | .array helement hknown hitems =>
    exprFollows_array hb.reserve hitems.scratch_grows (by simpa using hknown)
      (hitems.follows hb helement)
  | .tuple hknown hitems => exprFollows_tuple hknown (hitems.follows hb)

theorem ExprsCode.follows (hb : Backed env x need c) {s s' : List ValueType} {es : List Expr}
    {types : List DataType} {code : List Instr} :
    ExprsCode c s es types code s' → ExprsFollow env x need c s es types code s'
  | .nil => exprsFollow_nil
  | .cons he hes =>
    exprsFollow_cons he.scratch_grows hes.scratch_grows (he.follows hb) (hes.follows hb)

theorem ItemsCode.follows (hb : Backed env x need c) {base cell : Nat} {element : DataType}
    {s s' : List ValueType} {es : List Expr} {code : List Instr} (helement : element.Storable) :
    ItemsCode c base cell element s es code s' →
      ItemsFollow env x need c base cell element s es code s'
  | .nil => itemsFollow_nil
  | .cons he hes =>
    itemsFollow_cons helement he.scratch_grows hes.scratch_grows (he.follows hb)
      (hes.follows hb helement)

end

end Lowering

end WasmCompiler
