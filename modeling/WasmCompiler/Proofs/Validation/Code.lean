import WasmCompiler.Proofs.Lowering.Layout
import WasmCompiler.Proofs.Typing.Rules
import WasmCompiler.Proofs.Validation.Typed

/-!
# The code of expressions and statements is valid

* `ExprCode.typed`: the code of an expression leaves the machine values of its type.
* `StmtCode.balanced`: the code of a statement leaves the stack empty between statements.

Both go by induction over the derivation that the code belongs to the expression or statement. What
validation knows has to fit what lowering knows (`Fits`): locals have the types of the variables
and of the scratch locals in them, functions the types of their signatures.
-/

namespace WasmCompiler.Lowering

open Wasm (FloatOp Instr IntOp ValueType)
open Wasm.Validation

/-- What validation knows fits what expressions are lowered in; `scratch` are the types of all
scratch locals of the function. -/
structure Fits (v : Context) (c : LoweringContext) (scratch : List ValueType) : Prop where
  memory : 0 < v.memories
  visible : ∀ name var, c.symbols.lookupVariable? name = some var →
    HasLocals v var.slot var.type.machineTypes
  scratch : HasLocals v c.scratchBase scratch
  functions : ∀ callee signature index, c.symbols.callable? callee = some signature →
    c.index? callee = some index → v.functions[index]? =
      some ⟨DataType.machineTypesAll signature.params, signature.result.machineTypes⟩
  allocator : v.functions[c.allocator]? = some ⟨[.i32], [.i32]⟩

variable {v : Context} {c : LoweringContext} {scratch : List ValueType}

theorem Fits.within (h : Fits v c scratch) (label : List ValueType) :
    Fits (v.within label) c scratch :=
  ⟨h.memory, h.visible, h.scratch, h.functions, h.allocator⟩

/-- The scratch locals after some others. -/
theorem Fits.scratchFrom (h : Fits v c scratch) {s types : List ValueType}
    (hs : s ++ types <+: scratch) : HasLocals v (c.scratchBase + s.length) types :=
  (h.scratch.mono hs).drop

/-- The scratch local that is handed out next has its type. -/
theorem Fits.scratchLocal (h : Fits v c scratch) {s : List ValueType} {type : ValueType}
    (hs : s ++ [type] <+: scratch) : v.locals[c.scratchBase + s.length]? = some type :=
  h.scratchFrom hs 0 type rfl

/-- The locals of an element are among those of its tuple. -/
theorem hasLocals_element {start : Nat} {elements : List DataType} {i : Nat} {type : DataType}
    (h : HasLocals v start (DataType.machineTypesAll elements)) (htype : elements[i]? = some type) :
    HasLocals v (start + elementStart elements i) type.machineTypes := by
  rw [DataType.machineTypesAll_split htype] at h
  exact h.drop.mono (List.prefix_append _ _)

/-! ### Operators

The instructions of an operator, with the conversions before it. -/

theorem typed_normalized {code : List Instr} (h : Typed v [] code [.i32]) :
    Typed v [] (normalized code) [.i32] :=
  h.append (((Typed.i32Const 0).onto [.i32]).cons (.i32Op .ne))

theorem typed_negateCode {type : DataType} (h : type.isNumeric) :
    Typed v type.machineTypes (negateCode type) type.machineTypes := by
  match type, h with
  | .i32, _ => exact ((Typed.i32Const _).onto [.i32]).cons (.i32Op .mul)
  | .f64, _ => exact .f32Neg

/-- An operand has the type of the operation, after its conversion. -/
theorem typed_converted {code : List Instr} {type : DataType} {float : Bool}
    (htype : type.Storable) (hfloat : type.isFloat → float)
    (h : Typed v [] code type.machineTypes) :
    Typed v [] (converted float ⟨code, type⟩) [if float then .f32 else .i32] := by
  rw [htype, cellType] at h
  unfold converted
  cases hcell : type.isFloat with
  | true =>
    rw [hfloat hcell]
    simpa [hcell] using h
  | false =>
    simp only [hcell, Bool.false_eq_true, if_false] at h
    cases float with
    | true => exact h.append .f32ConvertI32S
    | false => exact h

/-- The operator takes two operands of one type. -/
theorem typed_operator {op : BinaryOp} {left right type : DataType} (hop : op.isLogical = false)
    (hresult : op.result? left right = some type) {float : Bool}
    (hfloat : float = (left.isFloat || right.isFloat)) :
    Typed v (List.replicate 2 (if float then .f32 else .i32)) (operatorInstr? op float).toList
      type.machineTypes := by
  rcases BinaryOp.result?_cases hresult with ⟨harith, -, rfl⟩ | ⟨hcomp, -, rfl⟩ | ⟨hlogical, -⟩
  · rw [← hfloat]
    cases op <;> cases harith <;> cases float <;>
      first | exact Typed.i32Op _ | exact Typed.f32Op _
  · cases op <;> cases hcomp <;> cases float <;>
      first | exact Typed.i32Op _ | exact Typed.f32Op _
  · rw [hop] at hlogical
    cases hlogical

/-- The operands are converted, and the operator gives the type that checking found. -/
theorem typed_arithmeticCode {op : BinaryOp} {left right type : DataType} {l r : List Instr}
    (hop : op.isLogical = false) (hresult : op.result? left right = some type)
    (hl : left.Storable) (hr : right.Storable) (hleft : Typed v [] l left.machineTypes)
    (hright : Typed v [] r right.machineTypes) :
    Typed v [] (arithmeticCode op ⟨l, left⟩ ⟨r, right⟩) type.machineTypes := by
  let float := left.isFloat || right.isFloat
  let type' : ValueType := if float then .f32 else .i32
  have hleft' : Typed v [] (converted float ⟨l, left⟩) [type'] :=
    typed_converted hl (fun h => Bool.or_eq_true_iff.mpr (.inl h)) hleft
  have hright' : Typed v [] (converted float ⟨r, right⟩) [type'] :=
    typed_converted hr (fun h => Bool.or_eq_true_iff.mpr (.inr h)) hright
  exact (hleft'.append (hright'.onto [type'])).append (typed_operator hop hresult rfl)

/-! ### Memory

Cells of blocks, for which the module has a memory. -/

theorem typed_loadCell (hmemory : 0 < v.memories) {type : DataType} (htype : type.Storable)
    (cell : Nat) : Typed v [.i32] [loadCell type cell] type.machineTypes := by
  rw [htype]
  exact .load hmemory _ _

theorem typed_storeCell (hmemory : 0 < v.memories) {type : DataType} (htype : type.Storable)
    (cell : Nat) : Typed v (.i32 :: type.machineTypes) [storeCell type cell] [] := by
  rw [htype]
  exact .store hmemory _ _

theorem typed_elementCode (hmemory : 0 < v.memories) {type : DataType} (htype : type.Storable) :
    Typed v [.i32, .i32] (elementCode type) type.machineTypes :=
  ((Typed.i32Const _).onto [.i32, .i32]).cons
    (((Typed.i32Op .mul).under [.i32]).cons
      ((Typed.i32Op .add).cons (typed_loadCell hmemory htype 1)))

/-- The header leaves nothing on the stack. -/
theorem typed_arrayHeader (hfits : Fits v c scratch) {base : Nat}
    (hbase : v.locals[base]? = some .i32) (count : Nat) :
    Typed v [] (arrayHeader c base count) [] :=
  (Typed.i32Const _).cons
    ((Typed.call hfits.allocator).cons
      ((Typed.localTee hbase).cons
        (((Typed.i32Const _).onto [.i32]).cons (.store hfits.memory .i32 0))))

/-! ### Expressions

The induction over the code of an expression. -/

mutual

/-- The code of an expression leaves the machine values of its type. -/
theorem ExprCode.typed {s s' : List ValueType} {e : Expr} {type : DataType} {code : List Instr} :
    ExprCode c s e type code s' → {v : Context} → Fits v c scratch → s' <+: scratch →
      Typed v [] code type.machineTypes
  | .integer .., _, _, _ | .string _, _, _, _ => .i32Const _
  | .float, _, _, _ => .f32Const _
  | .variable hvar, _, hfits, _ => typed_getSlots (hfits.visible _ _ hvar)
  | .negate hnumeric hoperand, _, hfits, hs =>
    (hoperand.typed hfits hs).append (typed_negateCode hnumeric)
  | .and hleft hright, _, hfits, hs => by
    have hs₁ := hright.scratch_grows.trans hs
    exact (hleft.typed hfits hs₁).append
      (.choice (typed_normalized (hright.typed (hfits.within _) hs)) (.i32Const _))
  | .or hleft hright, _, hfits, hs => by
    have hs₁ := hright.scratch_grows.trans hs
    exact (hleft.typed hfits hs₁).append
      (.choice (.i32Const _) (typed_normalized (hright.typed (hfits.within _) hs)))
  | .operator hop hresult hl hr hleft hright, _, hfits, hs =>
    typed_arithmeticCode hop hresult hl hr
      (hleft.typed hfits (hright.scratch_grows.trans hs)) (hright.typed hfits hs)
  | .call hcallee hindex hargs, _, hfits, hs =>
    (hargs.typed hfits hs).append (.call (hfits.functions _ _ _ hcallee hindex))
  | .field _ htype hbase, _, hfits, hs =>
    (hbase.typed hfits hs).append (typed_loadCell hfits.memory htype _)
  | .element htype _ hbase hindex, _, hfits, hs => by
    have hs₁ := hindex.scratch_grows.trans hs
    -- the address of the block stays below the index on the stack
    exact ((hbase.typed hfits hs₁).append ((hindex.typed hfits hs).onto [.i32])).append
      (typed_elementCode hfits.memory htype)
  | .component hvar htuple _ htype, _, hfits, _ => by
    have hlocals := hfits.visible _ _ hvar
    rw [htuple, DataType.machineTypes] at hlocals
    exact typed_getSlots (hasLocals_element hlocals htype)
  | .spilled _ htype hbase, _, hfits, hs => by
    have hs₁ := (List.prefix_append _ _).trans hs
    have hlocals := hfits.scratchFrom hs
    exact (hbase.typed hfits hs₁).append
      ((typed_setSlots hlocals).append (typed_getSlots (hasLocals_element hlocals htype)))
  | .emptyArray, _, hfits, hs => by
    have hlocal := hfits.scratchLocal hs
    exact (typed_arrayHeader hfits hlocal 0).append (.localGet hlocal)
  | .array helement _ hitems, _, hfits, hs => by
    have hlocal := hfits.scratchLocal (hitems.scratch_grows.trans hs)
    exact ((typed_arrayHeader hfits hlocal _).append (hitems.typed helement hfits hs hlocal)).append
      (.localGet hlocal)
  | .tuple _ hitems, _, hfits, hs => hitems.typed hfits hs

theorem ExprsCode.typed {s s' : List ValueType} {es : List Expr} {types : List DataType}
    {code : List Instr} : ExprsCode c s es types code s' → {v : Context} → Fits v c scratch →
      s' <+: scratch → Typed v [] code (DataType.machineTypesAll types)
  | .nil, _, _, _ => .nil
  | .cons he hes, _, hfits, hs =>
    (he.typed hfits (hes.scratch_grows.trans hs)).append ((hes.typed hfits hs).onto _)

/-- The items of an array go into its cells, and nothing stays on the stack. -/
theorem ItemsCode.typed {base cell : Nat} {element : DataType} {s s' : List ValueType}
    {es : List Expr} {code : List Instr} : ItemsCode c base cell element s es code s' →
      element.Storable → {v : Context} → Fits v c scratch → s' <+: scratch →
      v.locals[base]? = some .i32 → Typed v [] code []
  | .nil, _, _, _, _, _ => .nil
  | .cons he hes, helement, _, hfits, hs, hbase => by
    have hitem := he.typed hfits (hes.scratch_grows.trans hs)
    refine ((Typed.localGet hbase).cons (hitem.onto [.i32])).append ?_
    exact (typed_storeCell hfits.memory helement _).cons (hes.typed helement hfits hs hbase)

end

/-! ### Statements

The same for statements, where the table grows along the way. -/

/-- What validation knows fits what a function is lowered in, whose declarations are in `g`. -/
structure FitsFunction (v : Context) (f : FunctionContext) (g : SymbolTable)
    (scratch : List ValueType) : Prop where
  memory : 0 < v.memories
  scratch : HasLocals v f.scratchBase scratch
  functions : ∀ callee signature index, g.callable? callee = some signature →
    (f.withSymbols g).index? callee = some index → v.functions[index]? =
      some ⟨DataType.machineTypesAll signature.params, signature.result.machineTypes⟩
  allocator : v.functions[f.allocator]? = some ⟨[.i32], [.i32]⟩
  prints : v.functions[printIndex]? = some ⟨[.i32], []⟩ ∧
    v.functions[printStringIndex]? = some ⟨[.i32], []⟩

variable {f : FunctionContext} {g : SymbolTable} {result : DataType} {params : List ValueType}

theorem FitsFunction.within (h : FitsFunction v f g scratch) (label : List ValueType) :
    FitsFunction (v.within label) f g scratch :=
  ⟨h.memory, h.scratch, h.functions, h.allocator, h.prints⟩

/-- A table in the middle of a function: its variables have their slots, and the slots in use have
their types. -/
structure Placed (v : Context) (g : SymbolTable) (params : List ValueType) (t : SymbolTable) :
    Prop where
  layout : t.Layout params
  globals : g.SameGlobals t
  slots : HasLocals v 0 (t.slotTypes params)

/-- A variable that can be seen has locals of its types. -/
theorem Placed.hasLocals {t : SymbolTable} (h : Placed v g params t) {var : Variable}
    (hvar : var ∈ t.scopes.flatten) : HasLocals v var.slot var.type.machineTypes := by
  obtain ⟨hbelow, hbegins⟩ := h.layout.visible var hvar
  have hstart : var.slot ≤ (t.slotTypes params).length := by
    rw [← h.layout.nextSlot]
    omega
  have hslots := h.slots
  rw [← List.take_append_drop var.slot (t.slotTypes params)] at hslots
  have hdrop := hslots.drop
  rw [List.length_take, Nat.min_eq_left hstart, Nat.zero_add] at hdrop
  exact hdrop.mono hbegins

/-- In a table that is placed, validation knows what the code of expressions needs. -/
theorem Placed.fits {t : SymbolTable} (h : Placed v g params t)
    (hf : FitsFunction v f g scratch) : Fits v (f.withSymbols t) scratch := by
  refine ⟨hf.memory, fun name var hvar => ?_, hf.scratch, fun callee signature index hcallee => ?_,
    hf.allocator⟩
  · obtain ⟨scope, hscope, hmem⟩ := SymbolTable.lookupVariable?_mem hvar
    exact h.hasLocals (List.mem_flatten_of_mem hscope hmem)
  · have hcallee' : g.callable? callee = some signature := by
      rw [← h.globals.callable? callee]
      exact hcallee
    exact hf.functions callee signature index hcallee'

/-- A table before another is placed if the other is. -/
theorem Placed.before {t t' : SymbolTable} (h : Placed v g params t') (ht : t.Layout params)
    (hglobals : g.SameGlobals t) (hdeclared : t.declared <+: t'.declared) :
    Placed v g params t :=
  ⟨ht, hglobals, h.slots.mono (SymbolTable.slotTypes_prefix params hdeclared)⟩

theorem Placed.within {t : SymbolTable} (h : Placed v g params t) (label : List ValueType) :
    Placed (v.within label) g params t :=
  ⟨h.layout, h.globals, h.slots⟩

/-- The table at the end of a block is placed if the one after the block is. -/
theorem Placed.inner {t t' : SymbolTable} (h : Placed v g params t'.exitScope)
    {s s' : List ValueType} {stmts : List Stmt} {code : List Instr}
    (hbody : StmtsCode f result t.enterScope s stmts code t' s') (ht : t.Layout params)
    (hg : g.SameGlobals t) : Placed v g params t' :=
  ⟨(hbody.layout ht.enterScope).1, hg.enterScope.trans hbody.sameGlobals, h.slots⟩

/-- The value goes to the first variable and from there to the others. -/
theorem balanced_initialCode {code : List Instr} {type : DataType} {first : Variable}
    {others : List Variable} (hcode : Typed v [] code type.machineTypes)
    (htypes : ∀ var ∈ first :: others, var.type.machineTypes = type.machineTypes)
    (hlocals : ∀ var ∈ first :: others, HasLocals v var.slot var.type.machineTypes) :
    Balanced v (code ++ initialCode first others) := by
  rw [List.forall_mem_cons] at htypes hlocals
  have hset : Typed v type.machineTypes (setSlots first.slot first.type.width) [] := by
    rw [← htypes.1]
    exact typed_setSlots hlocals.1
  unfold initialCode
  rw [← List.append_assoc]
  refine (hcode.append hset).balanced.append (Balanced.flatMap fun var hvar => ?_)
  have htarget : HasLocals v var.slot first.type.machineTypes := by
    rw [htypes.1, ← htypes.2 var hvar]
    exact hlocals.2 var hvar
  exact (typed_copySlots hlocals.1 htarget).balanced

mutual

/-- The code of a statement leaves the stack empty. -/
theorem StmtCode.balanced {t t' : SymbolTable} {s s' : List ValueType} {stmt : Stmt}
    {code : List Instr} : StmtCode f result t s stmt code t' s' → {v : Context} →
      FitsFunction v f g scratch → v.results = result.machineTypes → t.Layout params →
      Placed v g params t' → g.SameGlobals t → s' <+: scratch → Balanced v code
  | .declare hbindings, _, _, _, _, hplaced, _, _ =>
    .flatMap fun var hvar =>
      (typed_zeroSlots (hplaced.hasLocals (hbindings.mem_scopes hvar))).balanced
  | .initial hvalue hbindings htypes, _, hf, _, ht, hplaced, hg, hs => by
    have hbefore := hplaced.before ht hg ((hbindings.layout ht).2 ▸ List.prefix_append _ _)
    exact balanced_initialCode (hvalue.typed (hbefore.fits hf) hs) htypes fun var hvar =>
      hplaced.hasLocals (hbindings.mem_scopes hvar)
  | .leave hresult, v, _, hresults, _, _, _, _ => by
    rw [DataType.machineTypes_of_isNone hresult] at hresults
    have hnothing : Typed v [] [] v.results := by
      rw [hresults]
      exact .nil
    exact Balanced.ret hnothing
  | .giveBack hvalue, _, hf, hresults, _, hplaced, _, hs =>
    .ret (hresults ▸ hvalue.typed (hplaced.fits hf) hs)
  | .assign hvar hvalue, _, hf, _, _, hplaced, _, hs => by
    have hfits := hplaced.fits hf
    exact ((hvalue.typed hfits hs).append (typed_setSlots (hfits.visible _ _ hvar))).balanced
  | .setField _ htype hbase hvalue, _, hf, _, _, hplaced, _, hs => by
    have hfits := hplaced.fits hf
    have hbase' := hbase.typed hfits (hvalue.scratch_grows.trans hs)
    exact ((hbase'.append ((hvalue.typed hfits hs).onto [.i32])).append
      (typed_storeCell hf.memory htype _)).balanced
  | .when hcondition hbody, _, hf, hresults, ht, hplaced, hg, hs => by
    have hbefore := hplaced.before ht hg (hbody.layout ht.enterScope).2
    have hcondition' := hcondition.typed (hbefore.fits hf) (hbody.scratch_grows.trans hs)
    exact .branch hcondition' (hbody.balanced (hf.within _) hresults ht.enterScope
      ((hplaced.within _).inner hbody ht hg) hg.enterScope hs)
  | .choose _ hcondition hbody halternate, _, hf, hresults, ht, hplaced, hg, hs => by
    -- the alternate is placed by the table after the body, the condition by the one before it
    have ht₁ := (hbody.layout ht.enterScope).1.exitScope
    have hg₁ := hg.trans hbody.sameGlobals_inner
    have hplaced₁ := hplaced.before ht₁ hg₁ (halternate.layout ht₁).2
    have hs₂ := halternate.scratch_grows.trans hs
    have hbefore := hplaced₁.before ht hg (hbody.layout ht.enterScope).2
    have hcondition' := hcondition.typed (hbefore.fits hf) (hbody.scratch_grows.trans hs₂)
    exact .choice hcondition'
      (hbody.balanced (hf.within _) hresults ht.enterScope
        ((hplaced₁.within _).inner hbody ht hg) hg.enterScope hs₂)
      (halternate.balanced (hf.within _) hresults ht₁ (hplaced.within _) hg₁ hs)
  | .loop hcondition hbody, _, hf, hresults, ht, hplaced, hg, hs => by
    have hbefore := hplaced.before ht hg (hbody.layout ht.enterScope).2
    -- condition and body lie inside the block and the loop
    have hfits := ((hbefore.within []).within []).fits ((hf.within []).within [])
    have hcondition' := hcondition.typed hfits (hbody.scratch_grows.trans hs)
    exact .loop hcondition' (hbody.balanced ((hf.within []).within []) hresults ht.enterScope
      (((hplaced.within []).within []).inner hbody ht hg) hg.enterScope hs)
  | .print htype hvalue, _, hf, _, _, hplaced, _, hs => by
    have hvalue' := hvalue.typed (hplaced.fits hf) hs
    rcases htype with rfl | rfl
    · exact (hvalue'.append (.call hf.prints.1)).balanced
    · exact (hvalue'.append (.call hf.prints.2)).balanced
  | .evaluate hvalue, _, hf, _, _, hplaced, _, hs =>
    ((hvalue.typed (hplaced.fits hf) hs).append (typed_drops _)).balanced
  | .block hbody, _, hf, hresults, ht, hplaced, hg, hs =>
    hbody.balanced hf hresults ht.enterScope (hplaced.inner hbody ht hg) hg.enterScope hs

theorem StmtsCode.balanced {t t' : SymbolTable} {s s' : List ValueType} {stmts : List Stmt}
    {code : List Instr} : StmtsCode f result t s stmts code t' s' → {v : Context} →
      FitsFunction v f g scratch → v.results = result.machineTypes → t.Layout params →
      Placed v g params t' → g.SameGlobals t → s' <+: scratch → Balanced v code
  | .nil, _, _, _, _, _, _, _ => Typed.nil.balanced
  | .cons hstmt hstmts, _, hf, hresults, ht, hplaced, hg, hs => by
    have ht₁ := (hstmt.layout ht).1
    have hg₁ := hg.trans hstmt.sameGlobals
    have hplaced₁ := hplaced.before ht₁ hg₁ (hstmts.layout ht₁).2
    exact (hstmt.balanced hf hresults ht hplaced₁ hg (hstmts.scratch_grows.trans hs)).append
      (hstmts.balanced hf hresults ht₁ hplaced hg₁ hs)

end

end WasmCompiler.Lowering
