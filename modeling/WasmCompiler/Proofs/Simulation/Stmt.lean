import WasmCompiler.Proofs.Simulation.Expr

/-!
# The code of statements does what they do

Statements end in one of two ways. Either the code after them runs next and the locals show the
variables as they are then, or the function is about to return the values that were given back
(`Ends`). As for expressions there is one lemma for each form; a loop is by induction on the number
of its rounds, with the machine at the beginning of the loop each time. `StmtsCode.follows` puts the
forms together.

`reaches_bind` is what happens for the names of a declaration, and `follows_rounds` the induction
for loops. Statements are followed without the blocks around them; `FlowFollows.inBlock` puts a
block around the code and goes on behind it.
-/

namespace WasmCompiler

open Lowering
open Source (Datum Eval Flow Interpreter Scopes Stop World)
open Wasm (Agrees Environment InLocals Instr IntOp Machine Place Store Value ValueType Written)
open Wasm.Machine (Reaches)

/-- A function has locals for its slots and scratch locals after them. -/
structure Fits (f : FunctionContext) (t : SymbolTable) (s : List ValueType) (size : Nat) :
    Prop where
  slots : t.nextSlot ≤ f.scratchBase
  size : f.scratchBase + s.length ≤ size

/-- What fits at the end of a function fits before. -/
theorem Fits.earlier {f : FunctionContext} {t t' : SymbolTable} {s s' : List ValueType}
    {size : Nat} (h : Fits f t' s' size) (hnext : t.nextSlot ≤ t'.nextSlot) (hgrows : s <+: s') :
    Fits f t s size :=
  ⟨Nat.le_trans hnext h.slots, Nat.le_trans (Nat.add_le_add_left hgrows.length_le _) h.size⟩

/-- The locals are as the code of an expression expects them. -/
theorem Fits.ready {f : FunctionContext} {t : SymbolTable} {s : List ValueType}
    {locals : Array Value} {params : List ValueType} {scopes : Scopes}
    (h : Fits f t s locals.size) (ht : t.Layout params) (hshows : Shows locals scopes t.scopes) :
    Ready (f.withSymbols t) scopes s locals :=
  ⟨hshows, fun var hvar => Nat.le_trans (ht.visible var hvar).1 h.slots, h.size⟩

/-- How the code of statements ends, in a function of so many locals. -/
def Ends (env : Environment) (result : DataType) (t : SymbolTable) (p : Place) (rest : List Instr)
    (size : Nat) : Flow → World → Machine → Prop
  | .next scopes, w, m => ∃ locals, m = p.machine rest [] locals w.store ∧ locals.size = size ∧
      Shows locals scopes t.scopes
  | .returned values, w, m => values.map (·.type) = result.machineTypes ∧
      Place.Returns env p values w.store m

/-- Code does what an action on the variables does. -/
def FlowFollows (env : Environment) (need : Nat) (f : FunctionContext) (result : DataType)
    (t : SymbolTable) (code : List Instr) (t' : SymbolTable) (s' : List ValueType)
    (action : Scopes → Eval Flow) : Prop :=
  ∀ (p : Place) (rest : List Instr) (locals : Array Value) (w : World) (scopes : Scopes),
    p.room + need ≤ env.stackRoom → p.arity = result.width → Fits f t' s' locals.size →
    Shows locals scopes t.scopes →
    Follows env (p.machine (code ++ rest) [] locals w.store) (action scopes w)
      (Ends env result t' p rest locals.size)

section Forms

variable {env : Environment} {x : Interpreter} {need : Nat} {f : FunctionContext}
  {result : DataType} {params : List ValueType} {t t₁ t' : SymbolTable} {s s₁ s' : List ValueType}
  {location : Location}

/-! ### Declarations

What writes the slots of new variables. -/

/-- A declaration takes slots and gives none back. -/
theorem declares_nextSlot_le {bindings : List Binding} {vars : List Variable}
    (h : Declares t bindings vars t') : t.nextSlot ≤ t'.nextSlot := by
  induction h with
  | nil => exact Nat.le_refl _
  | cons _ _ _ _ ih => exact Nat.le_trans (Nat.le_add_right _ _) ih

/-- What a variable of a type is given by a declaration. -/
def initialValues (value : Option (List Value)) (type : DataType) : List Value :=
  value.getD (type.machineTypes.map .zero)

/-- Each name of a declaration becomes a variable, and code writes its slots. Slots below a number
stay while the names are bound, so a value can be copied from there. -/
theorem reaches_bind {p : Place} {rest : List Instr} {w : World} (value : Option (List Value))
    {write : Variable → List Instr} {bindings : List Binding} {vars : List Variable}
    (h : Declares t bindings vars t') (ht : t.Layout params) {n : Nat} (hn : n ≤ t.nextSlot)
    {locals locals₁ : Array Value} (hagrees : Agrees n locals locals₁) {scopes : Scopes}
    (hshows : Shows locals₁ scopes t.scopes) (hsize : t'.nextSlot ≤ locals.size)
    (hvalue : ∀ var ∈ vars, (initialValues value var.type).map (·.type) = var.type.machineTypes)
    (hwrite : ∀ var ∈ vars, ∀ rest locals₁, Agrees n locals locals₁ → n ≤ var.slot →
      var.slot + var.type.width ≤ locals.size →
      ∃ locals', Written locals₁ var.slot (initialValues value var.type) locals' ∧
        Reaches env (p.machine (write var ++ rest) [] locals₁ w.store)
          (p.machine rest [] locals' w.store)) :
    ∃ scopes' locals', Source.bind value bindings scopes w = .ok (scopes', w) ∧
      Reaches env (p.machine (vars.flatMap write ++ rest) [] locals₁ w.store)
        (p.machine rest [] locals' w.store) ∧
      Agrees n locals locals' ∧ Shows locals' scopes' t'.scopes := by
  induction h generalizing locals₁ scopes with
  | nil => exact ⟨scopes, locals₁, rfl, .refl, hagrees, hshows⟩
  | @cons t t' b bs vars type htype hopen _ hbs ih =>
    rw [List.forall_mem_cons] at hvalue hwrite
    have hnext : t.nextSlot + type.width ≤ t'.nextSlot := declares_nextSlot_le hbs
    obtain ⟨locals₂, hwritten, hrun⟩ :=
      hwrite.1 (vars.flatMap write ++ rest) locals₁ hagrees hn (Nat.le_trans hnext hsize)
    -- there is an innermost scope, as the table has one
    obtain ⟨scope, outer, rfl⟩ := hshows.exists_cons hopen
    have hshows₂ := hshows.declare ht (declaredVariable t b.name type) rfl hvalue.1 hwritten
    obtain ⟨scopes', locals', hbind, hrun', hagrees', hshows'⟩ :=
      ih (ht.withVariable rfl (slotTypes_declared t b.name type)) (Nat.le_add_right_of_le hn)
        (hagrees.trans (hwritten.agrees hn)) hshows₂ hsize hvalue.2 hwrite.2
    refine ⟨scopes', locals', ?_, ?_, hagrees', hshows'⟩
    · rw [Source.bind, htype]
      exact hbind
    · rw [List.flatMap_cons, List.append_assoc]
      exact hrun.trans hrun'

/-- Variables without a value become zero, also when the declaration is reached again. -/
theorem flowFollows_declare (ht : t.Layout params) {isMutable : Bool} {bindings : List Binding}
    {vars : List Variable} (hbindings : Declares t bindings vars t') :
    FlowFollows env need f result t (vars.flatMap zeroSlots) t' s
      (Source.execStmt x (.declare location isMutable bindings none)) := by
  intro p rest locals w scopes _ _ hfits hshows
  have hsize : t'.nextSlot ≤ locals.size := by
    have := hfits.slots
    have := hfits.size
    omega
  -- without a value a variable begins with zeros of its types
  have hzero (type : DataType) :
      (initialValues none type).map (·.type) = type.machineTypes := by
    have hid : (fun type => (Value.zero type).type) = id := by
      funext type
      cases type <;> rfl
    simp only [initialValues, Option.getD_none, List.map_map, Function.comp_def, hid, List.map_id]
  obtain ⟨scopes', locals', hbind, hrun, hagrees, hshows'⟩ :=
    reaches_bind none hbindings ht (Nat.zero_le _) (.refl 0 locals) hshows hsize
      (fun var _ => hzero var.type) fun var _ rest locals₁ hagrees _ hle =>
        p.reaches_zeroSlots rest [] w.store (hagrees.size ▸ hle)
  rw [Source.execStmt]
  exact .bind_of_ok hbind (.after hrun (.pure ⟨locals', rfl, hagrees.size, hshows'⟩))

/-- The value is evaluated once and copied to the other names. -/
theorem flowFollows_initial (ht : t.Layout params) {isMutable : Bool} {bindings : List Binding}
    {value : Expr} {type : DataType} {first : Variable} {others : List Variable}
    {code : List Instr} (hvalue : ExprFollows env x need (f.withSymbols t) s value type code s')
    (hbindings : Declares t bindings (first :: others) t')
    (htypes : ∀ var ∈ first :: others, var.type.machineTypes = type.machineTypes) :
    FlowFollows env need f result t (code ++ initialCode first others) t' s'
      (Source.execStmt x (.declare location isMutable bindings (some value))) := by
  intro p rest locals w scopes hroom _ hfits hshows
  have hready := (hfits.earlier (declares_nextSlot_le hbindings) (List.prefix_refl _)).ready ht
    hshows
  rw [Source.execStmt, List.append_assoc]
  refine .bind (hvalue p _ [] locals w scopes hroom hready) ?_
  rintro ⟨type', values⟩ w₁ _ ⟨locals₁, rfl, hagrees, htyped, -⟩
  have hshows₁ := (hready.agrees hagrees (Nat.le_add_right _ _)).visible
  have hvalues : ∀ var ∈ first :: others, values.map (·.type) = var.type.machineTypes :=
    fun var hvar => htyped.trans (htypes var hvar).symm
  have hwidth : ∀ var ∈ first :: others, values.length = var.type.width := by
    intro var hvar
    rw [DataType.width, ← hvalues var hvar, List.length_map]
  rw [List.forall_mem_cons] at hvalues hwidth
  have hsize : t'.nextSlot ≤ locals₁.size := by
    have := hfits.slots
    have := hfits.size
    rw [hagrees.size]
    omega
  cases hbindings with
  | @cons _ _ b bs _ vtype htype hopen _ hbs =>
    have hnext : t.nextSlot + vtype.width ≤ t'.nextSlot := declares_nextSlot_le hbs
    have hlength : values.length = vtype.width := hwidth.1
    have hroomFirst : t.nextSlot + values.length ≤ locals₁.size := by omega
    obtain ⟨locals₂, hwritten, hrun⟩ := p.reaches_setSlots
      (others.flatMap (fun var => copySlots t.nextSlot var.slot values.length) ++ rest) []
      w₁.store hroomFirst
    obtain ⟨scope, outer, rfl⟩ := hshows.exists_cons hopen
    have hshows₂ := hshows₁.declare ht (declaredVariable t b.name vtype) rfl hvalues.1 hwritten
    -- the others are copied from the slots of the first, which are below all of theirs
    have hcopy : ∀ var ∈ others, ∀ rest locals₃,
        Agrees (t.nextSlot + vtype.width) locals₂ locals₃ → t.nextSlot + vtype.width ≤ var.slot →
        var.slot + var.type.width ≤ locals₂.size →
        ∃ locals', Written locals₃ var.slot values locals' ∧
          Reaches env
            (p.machine (copySlots t.nextSlot var.slot values.length ++ rest) [] locals₃ w₁.store)
            (p.machine rest [] locals' w₁.store) := by
      intro var hvar rest locals₃ hagrees₃ hbelow hle
      rw [← hlength] at hagrees₃ hbelow
      refine p.reaches_copySlots rest [] w₁.store
        (hwritten.holds.agrees hagrees₃ (Nat.le_refl _)) hbelow ?_
      rw [hwidth.2 var hvar, hagrees₃.size]
      exact hle
    obtain ⟨scopes', locals', hbind, hrun', hagrees', hshows'⟩ :=
      reaches_bind (some values) hbs (ht.withVariable rfl (slotTypes_declared t b.name vtype))
        (Nat.le_refl _) (.refl _ locals₂) hshows₂ (hwritten.size ▸ hsize) hvalues.2 hcopy
    have hcode : initialCode (declaredVariable t b.name vtype) others ++ rest =
        setSlots t.nextSlot values.length ++
          (others.flatMap (fun var => copySlots t.nextSlot var.slot values.length) ++ rest) := by
      rw [hlength]
      exact List.append_assoc _ _ _
    have hfirst : Source.bind (some values) (b :: bs) (scope :: outer) w₁ = .ok (scopes', w₁) := by
      rw [Source.bind, htype]
      exact hbind
    have hsizes : locals'.size = locals.size :=
      hagrees'.size.trans (hwritten.size.trans hagrees.size)
    rw [hcode]
    exact .bind_of_ok hfirst (.after (hrun.trans hrun') (.pure ⟨locals', rfl, hsizes, hshows'⟩))

/-! ### Simple statements

One lemma for each form. -/

theorem flowFollows_leave (hresult : result.isNone) :
    FlowFollows env need f result t [.ret] t s (Source.execStmt x (.ret location none)) := by
  intro p rest locals w scopes _ harity _ _
  have htypes : result.machineTypes = [] := DataType.machineTypes_of_isNone hresult
  have hzero : ([] : List Value).length = p.arity := by
    rw [harity, DataType.width, htypes]
    rfl
  rw [Source.execStmt]
  exact .pure ⟨htypes.symm, p.returns_ret rest [] locals w.store hzero⟩

theorem flowFollows_giveBack (ht : t.Layout params) {value : Expr} {code : List Instr}
    (hvalue : ExprFollows env x need (f.withSymbols t) s value result code s') :
    FlowFollows env need f result t (code ++ [.ret]) t s'
      (Source.execStmt x (.ret location (some value))) := by
  intro p rest locals w scopes hroom harity hfits hshows
  rw [Source.execStmt, List.append_assoc]
  refine .bind (hvalue p _ [] locals w scopes hroom (hfits.ready ht hshows)) ?_
  rintro d w₁ _ ⟨locals₁, rfl, -, htyped, -⟩
  have hlength : d.values.length = p.arity := htyped.length.trans harity.symm
  exact .pure ⟨htyped, p.returns_ret rest [] locals₁ w₁.store hlength⟩

/-- The values are written to the slots of the variable. -/
theorem flowFollows_assign (ht : t.Layout params) {l : Location} {name : String} {value : Expr}
    {var : Variable} {code : List Instr} (hvar : t.lookupVariable? name = some var)
    (hvalue : ExprFollows env x need (f.withSymbols t) s value var.type code s') :
    FlowFollows env need f result t (code ++ setSlots var.slot var.type.width) t s'
      (Source.execStmt x (.assign location (.identifier l name) value)) := by
  intro p rest locals w scopes hroom _ hfits hshows
  have hready := hfits.ready ht hshows
  rw [Source.execStmt, Source.execAssignment, List.append_assoc]
  refine .bind (hvalue p _ [] locals w scopes hroom hready) ?_
  rintro d w₁ _ ⟨locals₁, rfl, hagrees, htyped, -⟩
  have hshows₁ := (hready.agrees hagrees (Nat.le_add_right _ _)).visible
  obtain ⟨scope, hscope, hmem⟩ := SymbolTable.lookupVariable?_mem hvar
  have hslots : var.slot + var.type.width ≤ f.scratchBase :=
    hready.slots var (List.mem_flatten.mpr ⟨scope, hscope, hmem⟩)
  -- the slots of a visible variable lie below the scratch
  have hsize : var.slot + d.values.length ≤ locals₁.size := by
    have := hfits.size
    rw [htyped.length, hagrees.size]
    omega
  obtain ⟨locals₂, hwritten, hrun⟩ := p.reaches_setSlots rest [] w₁.store hsize
  obtain ⟨scopes', hassign, hshows'⟩ := hshows₁.assign hvar ht.apart htyped hwritten
  rw [htyped.length] at hrun
  rw [hassign]
  exact .after hrun (.pure ⟨locals₂, rfl, hwritten.size.trans hagrees.size, hshows'⟩)

/-- The address is evaluated before the value. -/
theorem flowFollows_setField (ht : t.Layout params) {l : Location} {base : Expr}
    {name struct : String} {value : Expr} {fields : List (String × DataType)} {i : Nat}
    {type : DataType} {b code : List Instr}
    (hfield : DataType.lookupField name fields = some (i, type)) (htype : type.Storable)
    (hcode : ExprCode (f.withSymbols t) s base (.struct struct fields) b s₁) (hgrows : s₁ <+: s')
    (hbase : ExprFollows env x need (f.withSymbols t) s base (.struct struct fields) b s₁)
    (hvalue : ExprFollows env x need (f.withSymbols t) s₁ value type code s') :
    FlowFollows env need f result t (b ++ code ++ [storeCell type i]) t s'
      (Source.execStmt x (.assign location (.member l base name) value)) := by
  intro p rest locals w scopes hroom _ hfits hshows
  have hready := hfits.ready ht hshows
  rw [Source.execStmt, Source.execAssignment, List.append_assoc, List.append_assoc]
  refine .bind (hbase p _ [] locals w scopes hroom (hready.of_grows hgrows)) ?_
  rintro d w₁ _ ⟨locals₁, rfl, hagrees, htyped, hknown⟩
  obtain ⟨a, ha, hword⟩ := htyped.word rfl
  have hready₁ := hready.agrees hagrees (Nat.le_add_right _ _)
  refine .bind (hvalue p _ _ locals₁ w₁ scopes hroom hready₁) ?_
  rintro dv w₂ _ ⟨locals₂, rfl, hagrees', htyped', -⟩
  obtain ⟨v, hv, hvtype⟩ := htyped'.single htype
  -- the field is found in the type the value has when the program runs
  have hfield' : d.type.field? name = some (i, type) := by
    rw [hknown (isEmptyArray_of_exprCode hcode rfl)]
    exact hfield
  rw [hfield', ha, hv]
  refine .bind_of_ok (hword w₂) (.bind (follows_store hv hvtype rfl) ?_)
  rintro _ w' _ rfl
  have hshows₂ := (hready₁.agrees hagrees' (Nat.le_add_right _ _)).visible
  exact .pure ⟨locals₂, rfl, hagrees'.size.trans hagrees.size, hshows₂⟩

/-- The function of the host is the one for the type. -/
theorem flowFollows_print (hb : Backed env x need (f.withSymbols t)) (ht : t.Layout params)
    {value : Expr} {type : DataType} {code : List Instr} (htype : type = .i32 ∨ type = .string)
    (hcode : ExprCode (f.withSymbols t) s value type code s')
    (hvalue : ExprFollows env x need (f.withSymbols t) s value type code s') :
    FlowFollows env need f result t (code ++ [printCode type]) t s'
      (Source.execStmt x (.print location value)) := by
  intro p rest locals w scopes hroom _ hfits hshows
  have hready := hfits.ready ht hshows
  have hword : type.machineTypes = [.i32] ∧ type.isArray = false := by
    rcases htype with rfl | rfl <;> exact ⟨rfl, rfl⟩
  rw [Source.execStmt, List.append_assoc]
  refine .bind (hvalue p _ [] locals w scopes hroom hready) ?_
  rintro d w₁ _ ⟨locals₁, rfl, hagrees, htyped, hknown⟩
  obtain ⟨a, ha, hword'⟩ := htyped.word hword.1
  rw [hknown (isEmptyArray_of_exprCode hcode hword.2), ha]
  refine .bind_of_ok (hword' w₁) (.bind (hb.print p rest [] locals₁ w₁ type a) ?_)
  rintro _ w' _ rfl
  have hshows₁ := (hready.agrees hagrees (Nat.le_add_right _ _)).visible
  exact .pure ⟨locals₁, rfl, hagrees.size, hshows₁⟩

theorem flowFollows_evaluate (ht : t.Layout params) {value : Expr} {type : DataType}
    {code : List Instr} (hvalue : ExprFollows env x need (f.withSymbols t) s value type code s') :
    FlowFollows env need f result t (code ++ List.replicate type.width .drop) t s'
      (Source.execStmt x (.expression location value)) := by
  intro p rest locals w scopes hroom _ hfits hshows
  have hready := hfits.ready ht hshows
  rw [Source.execStmt, List.append_assoc]
  refine .bind (hvalue p _ [] locals w scopes hroom hready) ?_
  rintro d w₁ _ ⟨locals₁, rfl, hagrees, htyped, -⟩
  have hshows₁ := (hready.agrees hagrees (Nat.le_add_right _ _)).visible
  rw [← htyped.length]
  exact .after (p.reaches_drops rest [] w₁.store d.values locals₁)
    (.pure ⟨locals₁, rfl, hagrees.size, hshows₁⟩)

/-! ### Blocks and conditions

Statements in a scope of their own. -/

/-- What happens in a scope of its own leaves the scopes around it. -/
theorem flowFollows_inScope {code : List Instr} {body : Scopes → Eval Flow}
    (hbody : FlowFollows env need f result t.enterScope code t' s' body) :
    FlowFollows env need f result t code t'.exitScope s' (Source.inScope body) := by
  intro p rest locals w scopes hroom harity hfits hshows
  have hinner : Shows locals ([] :: scopes) t.enterScope.scopes := .cons .nil hshows
  refine .bind (hbody p rest locals w ([] :: scopes) hroom harity ⟨hfits.slots, hfits.size⟩
    hinner) ?_
  intro flow w' m' hends
  match flow, hends with
  | .returned values, hends => exact .pure hends
  | .next scopes', ⟨locals', hm, hsize, hshows'⟩ =>
    refine .pure ⟨locals', hm, hsize, ?_⟩
    -- the scope is closed on both sides
    show Shows locals' scopes'.tail t'.scopes.tail
    generalize t'.scopes = vars at hshows'
    cases hshows' with
    | nil => exact .nil
    | cons _ houter => exact houter

/-- At the end of a block the code after it runs. -/
theorem FlowFollows.inBlock {code : List Instr} {action : Scopes → Eval Flow}
    (h : FlowFollows env need f result t code t' s' action) {p : Place} {rest : List Instr}
    {locals : Array Value} {w : World} {scopes : Scopes} (hroom : p.room + need ≤ env.stackRoom)
    (harity : p.arity = result.width) (hfits : Fits f t' s' locals.size)
    (hshows : Shows locals scopes t.scopes) :
    Follows env ((p.within (Place.blockLabel 0 rest [])).machine code [] locals w.store)
      (action scopes w) (Ends env result t' p rest locals.size) := by
  have hinner := h (p.within (Place.blockLabel 0 rest [])) [] locals w scopes hroom harity hfits
    hshows
  rw [List.append_nil] at hinner
  -- leaving the block is a step of its own, so the action is followed by nothing
  have hthen : action scopes w = (action scopes >>= Pure.pure) w := by rw [bind_pure]
  rw [hthen]
  refine .bind hinner ?_
  intro flow w' m' hends
  match flow, hends with
  | .returned values, hends => exact .pure hends
  | .next scopes', ⟨locals', hm, hsize, hshows'⟩ =>
    rw [hm]
    exact .after (p.reaches_end [] locals' w'.store _) (.pure ⟨locals', rfl, hsize, hshows'⟩)

/-- A condition is on the stack, and the variables are as before. -/
theorem follows_condition (ht : t.Layout params) {condition : Expr} {code : List Instr}
    (hcondition : ExprFollows env x need (f.withSymbols t) s condition .i32 code s₁) {p : Place}
    {rest : List Instr} {locals : Array Value} {w : World} {scopes : Scopes}
    (hroom : p.room + need ≤ env.stackRoom) (hfits : Fits f t s₁ locals.size)
    (hshows : Shows locals scopes t.scopes) {then_ : UInt32 → Eval Flow}
    {post : Flow → World → Machine → Prop}
    (hthen : ∀ a locals₁ w₁, locals₁.size = locals.size → Shows locals₁ scopes t.scopes →
      Follows env (p.machine rest [.i32 a] locals₁ w₁.store) (then_ a w₁) post) :
    Follows env (p.machine (code ++ rest) [] locals w.store)
      ((do
        let d ← Source.evalExpr x scopes condition
        then_ (← d.word)) w) post := by
  have hready := hfits.ready ht hshows
  refine .bind (hcondition p rest [] locals w scopes hroom hready) ?_
  rintro d w₁ _ ⟨locals₁, rfl, hagrees, htyped, -⟩
  obtain ⟨a, ha, hword⟩ := htyped.word rfl
  rw [ha]
  exact .bind_of_ok (hword w₁)
    (hthen a locals₁ w₁ hagrees.size (hready.agrees hagrees (Nat.le_add_right _ _)).visible)

/-- A conditional without an alternative does nothing if its condition is zero. -/
theorem flowFollows_when (ht : t.Layout params) {condition : Expr} {body : List Stmt}
    {b code : List Instr} (hgrows : s₁ <+: s') (hnext : t.nextSlot ≤ t'.nextSlot)
    (hscopes : t'.scopes = t.scopes)
    (hcondition : ExprFollows env x need (f.withSymbols t) s condition .i32 b s₁)
    (hbody : FlowFollows env need f result t code t' s'
      (Source.inScope (Source.execStmts x body))) :
    FlowFollows env need f result t (b ++ [.branch none code none]) t' s'
      (Source.execStmt x (.conditional location condition body none)) := by
  intro p rest locals w scopes hroom harity hfits hshows
  rw [Source.execStmt, List.append_assoc]
  refine follows_condition ht hcondition hroom (hfits.earlier hnext hgrows) hshows ?_
  intro a locals₁ w₁ hsize hshows₁
  rw [← hsize] at hfits ⊢
  by_cases hzero : a = 0
  · subst hzero
    rw [if_pos rfl]
    refine .after ((p.reaches_branch_not_taken _ _ _ _).trans (p.reaches_end _ _ _ _)) (.pure ?_)
    exact ⟨locals₁, rfl, rfl, hscopes ▸ hshows₁⟩
  · rw [if_neg hzero]
    exact .after (p.reaches_branch_taken _ _ _ _ hzero) (hbody.inBlock hroom harity hfits hshows₁)

/-- A conditional with an alternative runs it if its condition is zero. -/
theorem flowFollows_choose (ht : t.Layout params) {condition : Expr} {body : List Stmt}
    {alternate : Stmt} {b code other : List Instr} {s₂ : List ValueType} (hgrows : s₁ <+: s₂)
    (hgrows' : s₂ <+: s') (hscopes : t₁.scopes = t.scopes) (hscopes' : t'.scopes = t₁.scopes)
    (hnext : t.nextSlot ≤ t₁.nextSlot) (hnext' : t₁.nextSlot ≤ t'.nextSlot)
    (hcondition : ExprFollows env x need (f.withSymbols t) s condition .i32 b s₁)
    (hbody : FlowFollows env need f result t code t₁ s₂ (Source.inScope (Source.execStmts x body)))
    (halternate : FlowFollows env need f result t₁ other t' s' (Source.execStmt x alternate)) :
    FlowFollows env need f result t (b ++ [.branch none code (some other)]) t' s'
      (Source.execStmt x (.conditional location condition body (some alternate))) := by
  intro p rest locals w scopes hroom harity hfits hshows
  rw [Source.execStmt, List.append_assoc]
  refine follows_condition ht hcondition hroom
    (hfits.earlier (Nat.le_trans hnext hnext') (hgrows.trans hgrows')) hshows ?_
  intro a locals₁ w₁ hsize hshows₁
  rw [← hsize] at hfits ⊢
  by_cases hzero : a = 0
  · subst hzero
    rw [if_pos rfl]
    refine .after (p.reaches_branch_not_taken _ _ _ _) ?_
    exact halternate.inBlock hroom harity hfits (hscopes ▸ hshows₁)
  · rw [if_neg hzero]
    refine .after (p.reaches_branch_taken _ _ _ _ hzero) ?_
    -- the body ends in the table between the two branches, which shows the same variables
    refine (hbody.inBlock hroom harity (hfits.earlier hnext' hgrows') hshows₁).weaken ?_
    intro flow w' m' hends
    match flow, hends with
    | .returned values, hends => exact hends
    | .next scopes', ⟨locals', hm, hsize', hshows'⟩ =>
      exact ⟨locals', hm, hsize', hscopes' ▸ hshows'⟩

/-! ### Loops

By induction on the rounds of the evaluation. -/

/-- The rounds of a loop, each from the beginning of the loop on. -/
theorem follows_rounds (ht : t.Layout params) {condition : Expr} {body : Scopes → Eval Flow}
    {b code : List Instr} (hgrows : s₁ <+: s') (hnext : t.nextSlot ≤ t'.nextSlot)
    (hscopes : t'.scopes = t.scopes)
    (hcondition : ExprFollows env x need (f.withSymbols t) s condition .i32 b s₁)
    (hbody : FlowFollows env need f result t code t' s' body) {p : Place} {rest : List Instr}
    (hroom : p.room + need ≤ env.stackRoom) (harity : p.arity = result.width) (fuel : Nat)
    {locals : Array Value} {w : World} {scopes : Scopes} (hfits : Fits f t' s' locals.size)
    (hshows : Shows locals scopes t.scopes) :
    Follows env
      ((p.within (Place.blockLabel 0 rest [])).machine
        [.loop none (b ++ [.i32Eqz, .brIf 1] ++ code ++ [.br 0])] [] locals w.store)
      (Source.repeatWhile (Source.evalExpr x · condition) body fuel scopes w)
      (Ends env result t' p rest locals.size) := by
  let q := p.within (Place.blockLabel 0 rest [])
  let loop : Instr := .loop none (b ++ [.i32Eqz, .brIf 1] ++ code ++ [.br 0])
  let round := q.within ⟨0, [loop], [], []⟩
  induction fuel generalizing locals w scopes with
  | zero => exact True.intro
  | succ fuel ih =>
    -- entering the loop puts a label that leads back to it
    have hbegin : Reaches env (q.machine [loop] [] locals w.store)
        (round.machine (b ++ ([.i32Eqz, .brIf 1] ++ (code ++ [.br 0]))) [] locals w.store) := by
      rw [← List.append_assoc, ← List.append_assoc]
      exact q.reaches_loop _ _ _ _ _
    have hround : round.room + need ≤ env.stackRoom := hroom
    rw [Source.repeatWhile]
    refine .after hbegin ?_
    refine follows_condition ht hcondition hround (hfits.earlier hnext hgrows) hshows ?_
    intro a locals₁ w₁ hsize hshows₁
    rw [← hsize] at hfits ⊢
    refine .after (round.reaches_i32Eqz _ _ _ _ a) ?_
    by_cases hzero : a = 0
    · subst hzero
      rw [if_pos rfl]
      refine .after (p.reaches_brIf_one _ _ _ _ _ _ (by decide)) (.pure ?_)
      exact ⟨locals₁, rfl, rfl, hscopes ▸ hshows₁⟩
    · -- the negated condition is zero, so the loop is not left
      have hfalse : Value.ofBool (a = 0) = .i32 0 := by simp [Value.ofBool, hzero]
      rw [if_neg hzero, hfalse]
      refine .after (round.reaches_brIf_zero _ _ _ _ _) ?_
      refine .bind (hbody round [.br 0] locals₁ w₁ scopes hroom harity hfits hshows₁) ?_
      intro flow w₂ m hends
      cases flow with
      | returned values => exact .pure hends
      | next scopes' =>
        -- a round that ends without a return branches back to the beginning
        obtain ⟨locals₂, hm, hsize', hshows'⟩ := hends
        rw [hm]
        refine .after (q.reaches_br_zero _ _ _ _ _) ?_
        rw [← hsize'] at hfits ⊢
        exact ih hfits (hscopes ▸ hshows')

/-- The jump out of the loop leads behind it, and the other one back to its beginning. -/
theorem flowFollows_loop (ht : t.Layout params) {condition : Expr} {body : List Stmt}
    {b code : List Instr} (hgrows : s₁ <+: s') (hnext : t.nextSlot ≤ t'.nextSlot)
    (hscopes : t'.scopes = t.scopes)
    (hcondition : ExprFollows env x need (f.withSymbols t) s condition .i32 b s₁)
    (hbody : FlowFollows env need f result t code t' s'
      (Source.inScope (Source.execStmts x body))) :
    FlowFollows env need f result t (loopCode b code) t' s'
      (Source.execStmt x (.whileLoop location condition body)) := by
  intro p rest locals w scopes hroom harity hfits hshows
  rw [Source.execStmt]
  exact .after (p.reaches_block _ _ _ _ _)
    (follows_rounds ht hgrows hnext hscopes hcondition hbody hroom harity x.fuel hfits hshows)

/-! ### Statements in order

A list of statements and the code of each. -/

theorem flowFollows_nil : FlowFollows env need f result t [] t s (Source.execStmts x []) := by
  intro p rest locals w scopes _ _ _ hshows
  rw [Source.execStmts]
  exact .pure ⟨locals, rfl, rfl, hshows⟩

/-- If the first statement returns, the others are not reached. -/
theorem flowFollows_cons {stmt : Stmt} {stmts : List Stmt} {code codes : List Instr}
    (hgrows : s₁ <+: s') (hnext : t₁.nextSlot ≤ t'.nextSlot)
    (hstmt : FlowFollows env need f result t code t₁ s₁ (Source.execStmt x stmt))
    (hstmts : FlowFollows env need f result t₁ codes t' s' (Source.execStmts x stmts)) :
    FlowFollows env need f result t (code ++ codes) t' s'
      (Source.execStmts x (stmt :: stmts)) := by
  intro p rest locals w scopes hroom harity hfits hshows
  rw [Source.execStmts, List.append_assoc]
  refine .bind (hstmt p _ locals w scopes hroom harity (hfits.earlier hnext hgrows) hshows) ?_
  intro flow w₁ m hends
  match flow, hends with
  | .returned values, hends => exact .pure hends
  | .next scopes', ⟨locals₁, hm, hsize, hshows₁⟩ =>
    rw [hm]
    rw [← hsize] at hfits ⊢
    exact hstmts p rest locals₁ w₁ scopes' hroom harity hfits hshows₁

end Forms

/-! ### All forms

The induction over the code of a statement. -/

namespace Lowering

variable {env : Environment} {x : Interpreter} {need : Nat} {f : FunctionContext}
  {result : DataType} {params : List ValueType} {g : SymbolTable}

theorem StmtCode.nextSlot_le {t t' : SymbolTable} {s s' : List ValueType} {stmt : Stmt}
    {code : List Instr} (h : StmtCode f result t s stmt code t' s') :
    t.nextSlot ≤ t'.nextSlot := by
  obtain ⟨width, -, hnext⟩ := h.frameWidth
  omega

theorem StmtsCode.nextSlot_le {t t' : SymbolTable} {s s' : List ValueType} {stmts : List Stmt}
    {code : List Instr} (h : StmtsCode f result t s stmts code t' s') :
    t.nextSlot ≤ t'.nextSlot := by
  obtain ⟨width, -, hnext⟩ := h.framesWidth
  omega

mutual

/-- The code of a statement does what the statement does. -/
theorem StmtCode.follows {t t' : SymbolTable} {s s' : List ValueType} {stmt : Stmt}
    {code : List Instr} (hb : ∀ t, g.SameGlobals t → Backed env x need (f.withSymbols t))
    (ht : t.Layout params) (hopen : t.scopes ≠ []) (hg : g.SameGlobals t) :
    StmtCode f result t s stmt code t' s' →
      FlowFollows env need f result t code t' s' (Source.execStmt x stmt)
  | .declare hbindings => flowFollows_declare ht hbindings
  | .initial hvalue hbindings htypes =>
    flowFollows_initial ht (hvalue.follows (hb t hg)) hbindings htypes
  | .leave hresult => flowFollows_leave hresult
  | .giveBack hvalue => flowFollows_giveBack ht (hvalue.follows (hb t hg))
  | .assign hvar hvalue => flowFollows_assign ht hvar (hvalue.follows (hb t hg))
  | .setField hfield htype hbase hvalue =>
    flowFollows_setField ht hfield htype hbase hvalue.scratch_grows (hbase.follows (hb t hg))
      (hvalue.follows (hb t hg))
  | .when hcondition hbody =>
    flowFollows_when ht hbody.scratch_grows hbody.nextSlot_le hbody.scopes_inner
      (hcondition.follows (hb t hg))
      (flowFollows_inScope (hbody.follows hb ht.enterScope (List.cons_ne_nil _ _) hg.enterScope))
  | .choose hshape hcondition hbody halternate => by
    have hscopes := hbody.scopes_inner
    have hopen₁ := hscopes ▸ hopen
    exact flowFollows_choose ht hbody.scratch_grows halternate.scratch_grows hscopes
      ((halternate.scopes hopen₁).2.2 hshape) hbody.nextSlot_le halternate.nextSlot_le
      (hcondition.follows (hb t hg))
      (flowFollows_inScope (hbody.follows hb ht.enterScope (List.cons_ne_nil _ _) hg.enterScope))
      (halternate.follows hb (hbody.layout ht.enterScope).1.exitScope hopen₁
        (hg.trans hbody.sameGlobals_inner))
  | .loop hcondition hbody =>
    flowFollows_loop ht hbody.scratch_grows hbody.nextSlot_le hbody.scopes_inner
      (hcondition.follows (hb t hg))
      (flowFollows_inScope (hbody.follows hb ht.enterScope (List.cons_ne_nil _ _) hg.enterScope))
  | .print htype hvalue =>
    flowFollows_print (hb t hg) ht htype hvalue (hvalue.follows (hb t hg))
  | .evaluate hvalue => flowFollows_evaluate ht (hvalue.follows (hb t hg))
  | .block hbody =>
    flowFollows_inScope (hbody.follows hb ht.enterScope (List.cons_ne_nil _ _) hg.enterScope)

theorem StmtsCode.follows {t t' : SymbolTable} {s s' : List ValueType} {stmts : List Stmt}
    {code : List Instr} (hb : ∀ t, g.SameGlobals t → Backed env x need (f.withSymbols t))
    (ht : t.Layout params) (hopen : t.scopes ≠ []) (hg : g.SameGlobals t) :
    StmtsCode f result t s stmts code t' s' →
      FlowFollows env need f result t code t' s' (Source.execStmts x stmts)
  | .nil => flowFollows_nil
  | .cons hstmt hstmts =>
    flowFollows_cons hstmts.scratch_grows hstmts.nextSlot_le (hstmt.follows hb ht hopen hg)
      (hstmts.follows hb (hstmt.layout ht).1 (hstmt.scopes hopen).1 (hg.trans hstmt.sameGlobals))

end

end Lowering

end WasmCompiler
