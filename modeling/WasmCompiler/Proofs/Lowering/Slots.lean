import WasmCompiler.Proofs.Lowering.Frames
import WasmCompiler.Proofs.Lowering.Functions
import WasmCompiler.Proofs.Symbols.Registration

/-!
# The slots of functions

A function is checked in a table and lowered in another, later one. Both tables look the same from
inside of the function (`SymbolTable.enterFunction`), so its parameters and its statements lead both
passes through the same tables. `Framed` says what this means for the locals of the function;
`lowering_follows_checking` says it of every function of an accepted program.

`CheckedIn` keeps what checking a function went through, and `CheckedIn.framed` turns it into what
lowering does. `resumes_lowerDeclarations` is the induction over the declarations, in which a
function may also fail to be lowered.
-/

namespace WasmCompiler

open Wasm (Function Instr ValueType)

namespace Lowering

variable {g t t' u : SymbolTable}

/-! ### Parameters -/

section Parameters

variable {params : List (Field × DataType)}

/-- Parameters take the first slots, in order. -/
theorem Parameters.occupies {before : List ValueType} (h : Parameters t params t')
    (hnext : t.nextSlot = before.length) (hvars : ∀ var ∈ t.scopes.headD [], var.Occupies before) :
    t'.nextSlot = (before ++ DataType.machineTypesAll (params.map (·.2))).length ∧
      t'.declared = t.declared ∧ ∀ var ∈ t'.scopes.headD [],
        var.Occupies (before ++ DataType.machineTypesAll (params.map (·.2))) := by
  induction h generalizing before with
  | nil =>
    rw [List.map_nil, DataType.machineTypesAll, List.append_nil]
    exact ⟨hnext, rfl, hvars⟩
  | @cons t t' field type rest _ _ _ ih =>
    -- a new parameter lies behind the earlier ones, which still occupy their slots
    have hvars' : ∀ var ∈ (t.withVariable (parameterVariable t field.name type)).scopes.headD [],
        var.Occupies (before ++ type.machineTypes) := by
      intro var hvar
      rcases List.mem_cons.mp hvar with rfl | hvar
      · exact Variable.occupies_append hnext
      · exact (hvars var hvar).append _
    have hnext' : (t.withVariable (parameterVariable t field.name type)).nextSlot =
        (before ++ type.machineTypes).length := by
      rw [List.length_append, ← hnext]
      rfl
    have hrest := ih hnext' hvars'
    rwa [List.append_assoc] at hrest

end Parameters

/-! ### From function to function

What one function leaves for the next. -/

/-- Two tables look the same from inside of a function. -/
def SameOutside (g t : SymbolTable) : Prop :=
  t.enterFunction = g.enterFunction

theorem SameOutside.function? (h : SameOutside g t) (name : String) :
    t.function? name = g.function? name :=
  congrArg (·.function? name) h

/-- After a function everything around it is as before. -/
theorem sameOutside_exitFunction (hglobals : g.enterFunction.SameGlobals t)
    (hscopes : t.scopes.tail = g.scopes) : SameOutside g t.exitFunction := by
  obtain ⟨hfunctions, hstructs, hstrings, hexports⟩ := hglobals
  simp only [SymbolTable.enterFunction] at hfunctions hstructs hstrings hexports
  simp only [SameOutside, SymbolTable.enterFunction, SymbolTable.exitFunction,
    SymbolTable.leaveFunction, SymbolTable.exitScope, hfunctions, hstructs, hstrings, hexports,
    hscopes]

/-- How a function was checked: the tables after its parameters and after its body. -/
structure CheckedIn (g : SymbolTable) (header : FunctionHeader) (source body : List Stmt)
    (signature : Signature) (params last : SymbolTable) : Prop where
  found : g.function? header.name = some signature
  checkedParams : checkParams (header.params.zip signature.params) g.enterFunction = .ok () params
  checkedBody : checkStmts signature.result source params = .ok body last

/-- A function that was checked in one table can be taken to be checked in the other. -/
theorem SameOutside.checkedIn (h : SameOutside g t) {header : FunctionHeader}
    {source body : List Stmt} {signature : Signature} {params last : SymbolTable}
    (hc : CheckedIn t header source body signature params last) :
    CheckedIn g header source body signature params last :=
  ⟨h.function? header.name ▸ hc.found, h ▸ hc.checkedParams, hc.checkedBody⟩

/-- When its body has been checked, a function leaves everything around it as it was. -/
theorem CheckedIn.exit {header : FunctionHeader} {source body : List Stmt} {signature : Signature}
    {params last : SymbolTable} (h : CheckedIn g header source body signature params last) :
    SameOutside g last.exitFunction := by
  have hparams := parameters_of_check h.checkedParams
  have hwalk := (agrees_stmts source h.checkedBody).walk
  refine sameOutside_exitFunction (hparams.sameGlobals.trans hwalk.sameGlobals) ?_
  rw [hwalk.scopes_tail, (hparams.scopes (List.cons_ne_nil _ _)).2]
  rfl

/-- A function was checked, or a struct. -/
inductive CheckedTopLevel (g : SymbolTable) : Stmt → Stmt → Prop
  | struct {location decl} : CheckedTopLevel g (.struct location decl) (.struct location decl)
  | function {location header source body signature params last}
    (h : CheckedIn g header source body signature params last) :
    CheckedTopLevel g (.function location header source) (.function location header body)

/-- A declaration that checks leaves a table in which the next one can be checked as in the
first. -/
theorem checkTopLevel_eq_ok {stmt stmt' : Stmt} (h : checkTopLevel stmt t = .ok stmt' t')
    (ht : SameOutside g t) : CheckedTopLevel g stmt stmt' ∧ SameOutside g t' := by
  cases stmt with
  | function location header source =>
    obtain ⟨body, hfunction, rfl⟩ := checkTopLevel_function_iff.mp h
    obtain ⟨signature, params, last, hfound, hparams, hbody, rfl⟩ := checkFunction_eq_ok hfunction
    have hchecked := ht.checkedIn ⟨hfound, hparams, hbody⟩
    exact ⟨.function hchecked, hchecked.exit⟩
  | struct location decl =>
    obtain ⟨rfl, rfl⟩ := checkTopLevel_struct_iff.mp h
    exact ⟨.struct, ht⟩
  | _ => cases h

/-- By induction over the declarations: all are checked as if in the same table. -/
theorem checkTopLevels_eq_ok {stmts stmts' : List Stmt}
    (h : stmts.mapM checkTopLevel t = .ok stmts' t') (ht : SameOutside g t) :
    List.Forall₂ (CheckedTopLevel g) stmts stmts' ∧ SameOutside g t' := by
  induction stmts generalizing t stmts' with
  | nil =>
    obtain ⟨rfl, rfl⟩ := EStateM.pure_eq_ok_iff.mp h
    exact ⟨.nil, ht⟩
  | cons stmt stmts ih =>
    obtain ⟨stmt', u, hstmt, rest, hrest, rfl⟩ := EStateM.mapM_cons_eq_ok_iff.mp h
    obtain ⟨hfirst, hu⟩ := checkTopLevel_eq_ok hstmt ht
    obtain ⟨hothers, hv⟩ := ih hrest hu
    exact ⟨.cons hfirst hothers, hv⟩

/-! ### Functions

The frame of a function that was checked. -/

/-- The locals of a lowered function: the slots of its variables, parameters first, and from the
number `last.nextSlot` on the scratch locals. -/
structure HasFrame (function : Function) (params last : SymbolTable) (scratch : List ValueType) :
    Prop where
  locals : function.locals = last.declared.flatMap (·.type.machineTypes) ++ scratch
  size : (function.type.params ++ last.declared.flatMap (·.type.machineTypes)).length =
    last.nextSlot
  occupied : ∀ var ∈ params.scopes.headD [] ++ last.declared,
    var.Occupies (function.type.params ++ function.locals)
  below : ∀ var ∈ params.scopes.headD [] ++ last.declared, ∀ k < var.type.width,
    var.slot + k < last.nextSlot

/-- The code of a function uses its slots and its scratch locals, and each scratch local is written
in one place. -/
structure KeepsToFrame (code : List Instr) (last : SymbolTable) (scratch : List ValueType) :
    Prop where
  locals : ∀ i ∈ Instr.locals code, i < last.nextSlot + scratch.length
  writes : ((Instr.writes code).filter (last.nextSlot ≤ ·)).Perm
    (List.range' last.nextSlot scratch.length)

section Functions

variable {program : Program} {header : FunctionHeader} {source body : List Stmt}
  {signature : Signature} {params last : SymbolTable}

/-- What a function is lowered in. -/
abbrev functionContext (program : Program) (last : SymbolTable) : FunctionContext :=
  ⟨functionIndices program, allocatorIndex program, last.nextSlot⟩

/-- The slots of the parameters come first, and every variable has its own. -/
theorem CheckedIn.allotted (h : CheckedIn g header source body signature params last)
    (hlength : signature.params.length = header.params.length) :
    params.nextSlot = (DataType.machineTypesAll signature.params).length ∧
      last.Allotted (DataType.machineTypesAll signature.params) ∧
      ∀ var ∈ params.scopes.headD [] ++ last.declared,
        var.Occupies (last.slotTypes (DataType.machineTypesAll signature.params)) := by
  have hzip : (header.params.zip signature.params).map (·.2) = signature.params :=
    List.map_snd_zip (Nat.le_of_eq hlength)
  have hstart : g.enterFunction.nextSlot = ([] : List ValueType).length := rfl
  obtain ⟨hnext, hdeclared, hvars⟩ := (parameters_of_check h.checkedParams).occupies hstart
    (by simp [SymbolTable.enterFunction])
  rw [hzip, List.nil_append] at hnext hvars
  have hdeclared : params.declared = [] := hdeclared
  -- before the body only the parameters have slots
  have hparams : params.Allotted (DataType.machineTypesAll signature.params) := by
    refine ⟨?_, by simp [hdeclared]⟩
    rw [SymbolTable.slotTypes, hdeclared, List.flatMap_nil, List.append_nil, hnext]
  have hlast := (agrees_stmts source h.checkedBody).walk.allotted hparams
  refine ⟨hnext, hlast, fun var hvar => ?_⟩
  rcases List.mem_append.mp hvar with hvar | hvar
  · exact (hvars var hvar).append _
  · exact hlast.declared var hvar

/-- Lowering a checked function is lowering its body, in the table after its parameters. -/
theorem CheckedIn.lowerFunction_eq (program : Program)
    (h : CheckedIn g header source body signature params last)
    (hlength : signature.params.length = header.params.length) (hu : SameOutside g u) :
    lowerFunction program header body u =
      match lowerStmts (functionContext program last) body ⟨params, []⟩ with
      | .error e s => .error e s.symbols
      | .ok code s =>
        .ok
          { name := header.name
            type := ⟨DataType.machineTypesAll signature.params, signature.result.machineTypes⟩
            locals := last.declared.flatMap (·.type.machineTypes) ++ s.scratch
            body := code ++ if signature.result.isNone then [] else [.unreachable]
            exported := header.exported || header.name = mainName }
          last.exitFunction := by
  obtain ⟨width, hwidth, hnext⟩ := (agrees_stmts source h.checkedBody).width
  have hfound : u.function? header.name = some signature := by
    rw [hu.function?, h.found]
  have hparams : defineParams (header.params.zip signature.params) ⟨u.enterFunction, []⟩ =
      .ok () ⟨params, []⟩ := by
    rw [show u.enterFunction = g.enterFunction from hu]
    exact defineParams_eq_ok (parameters_of_check h.checkedParams) []
  obtain ⟨hparamSlots, hallotted, -⟩ := h.allotted hlength
  -- the width that is computed beforehand is that of the variables checking declared
  have hsize : params.nextSlot + (last.declared.flatMap (·.type.machineTypes)).length =
      params.nextSlot + width := by
    rw [← hnext, hallotted.nextSlot, SymbolTable.slotTypes, List.length_append, hparamSlots]
  have hends := (agrees_stmts source h.checkedBody).endsIn (functionContext program last) []
  rw [functionContext, hnext] at hends ⊢
  cases hlower : lowerStmts ⟨functionIndices program, allocatorIndex program,
      params.nextSlot + width⟩ body ⟨params, []⟩ with
  | ok code s =>
    rw [hlower] at hends
    obtain ⟨t₁, scratch⟩ := s
    obtain ⟨rfl, -⟩ := hends
    simp only [lowerFunction, hfound, lowerBody_eq_ok hparams hwidth hlower hsize]
  | error e s => simp only [lowerFunction, hfound, lowerBody_eq_error hparams hwidth hlower]

/-- The statements of a body use slots below the scratch locals, and code that mentions none may
follow. -/
theorem CheckedIn.keepsToFrame (h : CheckedIn g header source body signature params last)
    (hscopes : g.scopes = []) {code : List Instr} {s : LoweringState}
    (hlower : lowerStmts (functionContext program last) body ⟨params, []⟩ = .ok code s)
    (tail : List Instr) (htail : Instr.mentionsAll tail = []) :
    KeepsToFrame (code ++ tail) last s.scratch := by
  have hstart : g.enterFunction.Layout [] := by
    refine ⟨rfl, ?_, ?_⟩ <;> simp [SymbolTable.enterFunction, hscopes]
  obtain ⟨hlayout, -⟩ := (parameters_of_check h.checkedParams).layout hstart rfl
  have hends := (agrees_stmts source h.checkedBody).endsIn (functionContext program last) []
  rw [hlower] at hends
  have huses := (hends.2 _ hlayout (Nat.le_refl _)).append (.quiet htail)
  refine ⟨fun i hi => ?_, by simpa using huses.writes⟩
  rcases huses.locals i hi with hi | hi
  · exact Nat.lt_of_lt_of_le hi (Nat.le_add_right _ _)
  · exact hi.2

/-- How a function is lowered in a table, given the tables that checking it went through. -/
structure Framed (program : Program) (header : FunctionHeader) (body : List Stmt)
    (signature : Signature) (params last u : SymbolTable) : Prop where
  found : u.function? header.name = some signature
  /-- Its parameters lead to the same table. -/
  loweredParams : defineParams (header.params.zip signature.params) ⟨u.enterFunction, []⟩ =
    .ok () ⟨params, []⟩
  /-- The number of slots is known before the body is lowered. -/
  size : ∃ width, framesWidth body = .ok width ∧ last.nextSlot = params.nextSlot + width
  /-- Its body leads to the same table. -/
  loweredBody : ∀ code s, lowerStmts (functionContext program last) body ⟨params, []⟩ = .ok code s →
    s.symbols = last
  /-- If there is an error then on the way to that table. -/
  stopped : ∀ e s, lowerStmts (functionContext program last) body ⟨params, []⟩ = .error e s →
    s.symbols.declared <+: last.declared
  /-- The error is not about the frame. -/
  unconcerned : ∀ e u', lowerFunction program header body u = .error e u' → ¬ e.ConcernsFrame
  /-- The locals are as in the table, and if no scope is open around the function then the code
  keeps to them. -/
  lowered : ∀ function u', lowerFunction program header body u = .ok function u' →
    ∃ scratch, HasFrame function params last scratch ∧
      (u.scopes = [] → KeepsToFrame function.body last scratch)

/-- The tables of lowering are those of checking, so the frame is the same. -/
theorem CheckedIn.framed (h : CheckedIn g header source body signature params last)
    (hlength : signature.params.length = header.params.length) (hu : SameOutside g u) :
    Framed program header body signature params last u := by
  have hagrees := agrees_stmts source h.checkedBody
  have hends := hagrees.endsIn (functionContext program last) []
  have heq := h.lowerFunction_eq program hlength hu
  refine ⟨?_, ?_, hagrees.width, ?_, ?_, ?_, ?_⟩
  · rw [hu.function?, h.found]
  · rw [show u.enterFunction = g.enterFunction from hu]
    exact defineParams_eq_ok (parameters_of_check h.checkedParams) []
  · intro code s hlower
    rw [hlower] at hends
    exact hends.1
  · intro e s hlower
    rw [hlower] at hends
    exact hends.1
  · intro e u' hlower
    rw [heq] at hlower
    split at hlower
    · rename_i e' s hbody
      rw [hbody] at hends
      obtain ⟨rfl, -⟩ := EStateM.Result.error.inj hlower
      exact hends.2
    · cases hlower
  · intro function u' hlower
    rw [heq] at hlower
    split at hlower
    · cases hlower
    · rename_i code s hbody
      obtain ⟨rfl, -⟩ := EStateM.Result.ok.inj hlower
      obtain ⟨-, hallotted, hoccupied⟩ := h.allotted hlength
      refine ⟨s.scratch, ⟨rfl, hallotted.nextSlot.symm, fun var hvar => ?_,
        fun var hvar k hk => ?_⟩, fun hscopes => ?_⟩
      · have hframe := (hoccupied var hvar).append s.scratch
        rwa [SymbolTable.slotTypes, List.append_assoc] at hframe
      · obtain ⟨type, htype⟩ : ∃ type, var.type.machineTypes[k]? = some type :=
          ⟨_, List.getElem?_eq_getElem hk⟩
        rw [hallotted.nextSlot]
        exact (List.getElem?_eq_some_iff.mp (hoccupied var hvar k type htype)).1
      · have hclosed : g.scopes = [] := (congrArg (·.scopes.tail) hu).symm.trans hscopes
        exact h.keepsToFrame hclosed hbody _ (by split <;> rfl)

end Functions

/-! ### Programs

All functions of an accepted program. -/

section Programs

/-- A step of a sequence comes after the steps before it. -/
theorem mapM_getElem?_eq_some {α β ε σ : Type} {f : α → EStateM ε σ β} {xs : List α} {ys : List β}
    {s s' : σ} (h : xs.mapM f s = .ok ys s') {k : Nat} {y : β} (hy : ys[k]? = some y) :
    ∃ x u u', xs[k]? = some x ∧ (xs.take k).mapM f s = .ok (ys.take k) u ∧ f x u = .ok y u' := by
  induction xs generalizing s ys k with
  | nil =>
    obtain ⟨rfl, rfl⟩ := EStateM.pure_eq_ok_iff.mp h
    cases hy
  | cons x xs ih =>
    obtain ⟨first, u, hfirst, others, hothers, rfl⟩ := EStateM.mapM_cons_eq_ok_iff.mp h
    cases k with
    | zero =>
      obtain rfl := Option.some.inj hy
      exact ⟨x, s, u, rfl, rfl, hfirst⟩
    | succ k =>
      obtain ⟨x', v', u', hx', htake, hstep⟩ := ih hothers hy
      refine ⟨x', v', u', hx', ?_, hstep⟩
      rw [List.take_succ_cons, List.mapM_cons, EStateM.bind_of_ok hfirst, EStateM.bind_of_ok htake]
      rfl

variable {program : Program} {stmts stmts' : List Stmt}

/-- Every function has as many parameters as its signature. -/
def Registered (g : SymbolTable) (stmts : List Stmt) : Prop :=
  ∀ location header source, Stmt.function location header source ∈ stmts →
    ∀ signature, g.function? header.name = some signature →
      signature.params.length = header.params.length

/-- A signature is made from the parameters, one type for each. -/
theorem registered_of_declare {t g : SymbolTable} {program : Program}
    (h : SymbolTable.declare program t = .ok () g) : Registered g program.statements := by
  intro location header source hmem signature hsignature
  obtain ⟨_, t₁, -, hfunctions⟩ := EStateM.bind_eq_ok_iff.mp h
  obtain ⟨signature', hfound, hlength⟩ :=
    SymbolTable.signature_of_declareFunctions hfunctions hmem
  rw [hsignature] at hfound
  rwa [Option.some.inj hfound]

theorem scopes_of_declareStructs {stmts : List Stmt} {t t' : SymbolTable} {u : Unit}
    (h : stmts.forM SymbolTable.declareIfStruct t = .ok u t') : t'.scopes = t.scopes := by
  refine SymbolTable.keeps_declareStructs (P := fun v => v.scopes = t.scopes) (fun h hu => ?_) h rfl
  obtain ⟨fields, -, -, rfl⟩ := SymbolTable.declareStruct_eq_ok_iff.mp h
  exact hu

theorem scopes_of_declare {t g : SymbolTable} {program : Program}
    (h : SymbolTable.declare program t = .ok () g) : g.scopes = t.scopes := by
  obtain ⟨_, t₁, hstructs, hfunctions⟩ := EStateM.bind_eq_ok_iff.mp h
  obtain ⟨entries, -, -, -, rfl⟩ := SymbolTable.declareFunctions_iff.mp hfunctions
  show t₁.scopes = t.scopes
  exact scopes_of_declareStructs hstructs

/-- Everything is as it was at first, or there is an error, which is not about a frame. -/
def Resumes {α : Type} (g : SymbolTable) : EStateM.Result LoweringError SymbolTable α → Prop
  | .ok _ u => SameOutside g u
  | .error e _ => ¬ e.ConcernsFrame

/-- If one step leaves everything as it was then the next one can begin. -/
theorem Resumes.bind {α β : Type} {x : EStateM LoweringError SymbolTable α}
    {k : α → EStateM LoweringError SymbolTable β} (hx : Resumes g (x u))
    (hk : ∀ a u', SameOutside g u' → Resumes g (k a u')) : Resumes g ((x >>= k) u) := by
  cases hu : x u with
  | ok a u' =>
    rw [hu] at hx
    rw [EStateM.bind_of_ok hu]
    exact hk a u' hx
  | error e u' =>
    rw [hu] at hx
    rw [EStateM.bind_of_error hu]
    exact hx

/-- A function that was checked is lowered, or there is an error that is not about its frame. -/
theorem CheckedIn.resumes {header : FunctionHeader} {source body : List Stmt}
    {signature : Signature} {params last : SymbolTable}
    (h : CheckedIn g header source body signature params last)
    (hlength : signature.params.length = header.params.length) (hu : SameOutside g u) :
    Resumes g (lowerFunction program header body u) := by
  have hends := (agrees_stmts source h.checkedBody).endsIn (functionContext program last) []
  rw [h.lowerFunction_eq program hlength hu]
  cases hlower : lowerStmts (functionContext program last) body ⟨params, []⟩ with
  | ok code s => exact h.exit
  | error e s =>
    rw [hlower] at hends
    exact hends.2

/-- A constructor has no frame. -/
theorem resumes_lowerStruct (name : String) (hu : SameOutside g u) :
    Resumes g (lowerStruct program name u) := by
  unfold lowerStruct
  split
  · exact id
  · exact hu

/-- Functions are lowered one after the other, each in a table that looks the same. -/
theorem resumes_lowerDeclarations (program : Program)
    (h : List.Forall₂ (CheckedTopLevel g) stmts stmts') (hregistered : Registered g stmts)
    (hu : SameOutside g u) :
    Resumes g (lowerDeclarations program stmts' u) := by
  induction h generalizing u with
  | nil => exact hu
  | cons hstmt _ ih =>
    -- the rest resumes from any table with the same globals
    have hrest {u' : SymbolTable} (hu' : SameOutside g u') :=
      ih (fun l d s hmem => hregistered l d s (List.mem_cons_of_mem _ hmem)) hu'
    cases hstmt with
    | struct =>
      rw [lowerDeclarations]
      exact (resumes_lowerStruct _ hu).bind fun _ _ hu' => (hrest hu').bind fun _ _ hu'' => hu''
    | function hchecked =>
      have hlength := hregistered _ _ _ List.mem_cons_self _ hchecked.found
      rw [lowerDeclarations]
      exact (hchecked.resumes hlength hu).bind fun _ _ hu' =>
        (hrest hu').bind fun _ _ hu'' => hu''

/-- A checked function comes from a function. -/
theorem checkTopLevel_function {stmt : Stmt} {location : Location} {header : FunctionHeader}
    {body : List Stmt} (h : checkTopLevel stmt t = .ok (.function location header body) t') :
    ∃ source signature params last, stmt = .function location header source ∧
      CheckedIn t header source body signature params last := by
  cases stmt with
  | function location' header' source =>
    obtain ⟨body', hfunction, heq⟩ := checkTopLevel_function_iff.mp h
    obtain ⟨rfl, rfl, rfl⟩ := Stmt.function.inj heq
    obtain ⟨signature, params, last, hfound, hparams, hbody, -⟩ := checkFunction_eq_ok hfunction
    exact ⟨source, signature, params, last, rfl, hfound, hparams, hbody⟩
  | struct => cases (checkTopLevel_struct_iff.mp h).1
  | _ => cases h

/-- What holds of lowering the declarations holds of the whole. -/
theorem resumes_generate {program checked : Program} {t g g' : SymbolTable}
    (hdeclare : SymbolTable.declare program t = .ok () g)
    (hcheck : checkProgram program g = .ok checked g')
    (h : Resumes g (lowerDeclarations checked checked.statements g')) :
    Resumes g (generate program t) := by
  have hfirst : semantic (SymbolTable.declare program) t = .ok () g := by
    rw [semantic, hdeclare]
  have hsecond : semantic (checkProgram program) g = .ok checked g' := by
    rw [semantic, hcheck]
  rw [generate, EStateM.bind_of_ok hfirst, EStateM.bind_of_ok hsecond]
  refine h.bind fun functions u hu => ?_
  split
  · exact hu
  · exact id

/-- Lowering takes the slots that checking took. For each function of an accepted program, checking
led through the tables `params` and `last`, after the parameters and after the body, and lowering
leads through the same. No error of `generate` is about a frame. -/
theorem lowering_follows_checking {program checked : Program} {t g g' : SymbolTable}
    (hdeclare : SymbolTable.declare program t = .ok () g)
    (hcheck : checkProgram program g = .ok checked g') :
    (∀ k location header body, checked.statements[k]? = some (.function location header body) →
      ∀ functions u, lowerDeclarations checked (checked.statements.take k) g' = .ok functions u →
        ∃ source before signature params last,
          program.statements[k]? = some (.function location header source) ∧
          (program.statements.take k).mapM checkTopLevel g =
            .ok (checked.statements.take k) before ∧
          CheckedIn before header source body signature params last ∧
          Framed checked header body signature params last u ∧ u.scopes = t.scopes) ∧
      ∀ e t', generate program t = .error e t' → ¬ e.ConcernsFrame := by
  have hregistered := registered_of_declare hdeclare
  have hstart : SameOutside g g := rfl
  obtain ⟨stmts', g₁, hstmts, hpure⟩ := EStateM.bind_eq_ok_iff.mp hcheck
  obtain ⟨rfl, rfl⟩ := EStateM.pure_eq_ok_iff.mp hpure
  obtain ⟨hpairs, hg₁⟩ := checkTopLevels_eq_ok hstmts hstart
  constructor
  · intro k location header body hfunction functions u hreached
    obtain ⟨stmt, before, after, hstmt, htake, hstep⟩ := mapM_getElem?_eq_some hstmts hfunction
    obtain ⟨hearlier, hbefore⟩ := checkTopLevels_eq_ok htake hstart
    obtain ⟨source, signature, params, last, rfl, hchecked⟩ := checkTopLevel_function hstep
    -- lowering the declarations before it has left the table as it was outside of them
    have hu : SameOutside g u := by
      have hregistered' : Registered g (program.statements.take k) := fun l d s hmem =>
        hregistered l d s (List.mem_of_mem_take hmem)
      have hresumes := resumes_lowerDeclarations ⟨stmts'⟩ hearlier hregistered' hg₁
      rwa [hreached] at hresumes
    have hlength : signature.params.length = header.params.length := by
      refine hregistered _ _ _ (List.mem_of_getElem? hstmt) signature ?_
      rw [← hbefore.function?, hchecked.found]
    have hscopes : u.scopes = t.scopes :=
      (congrArg (·.scopes.tail) hu).trans (scopes_of_declare hdeclare)
    exact ⟨source, before, signature, params, last, hstmt, htake, hchecked,
      hchecked.framed hlength (hu.trans hbefore.symm), hscopes⟩
  · intro e t' hgenerate
    have hresumes := resumes_generate hdeclare hcheck
      (resumes_lowerDeclarations _ hpairs hregistered hg₁)
    rwa [hgenerate] at hresumes

/-- A function with a tuple for two names, a variable in a block, and an array in an array. -/
def frameSource : String :=
  "func f(a: i32) \x7b let x, y = (a, 2.5); if a < x[0] \x7b let z = [[a]]; \x7d \x7d"

/-- Whether a statement declares a function. -/
def isFunction : Stmt → Bool
  | .function .. => true
  | _ => false

/-- A function of the sample, with the tables that checking it went through. -/
theorem lowering_follows_checking_frame :
    ∃ program t g checked g' location header body signature params last,
      t.scopes = [] ∧ SymbolTable.declare program t = .ok () g ∧
      checkProgram program g = .ok checked g' ∧
      checked.statements[0]? = some (.function location header body) ∧
      Framed checked header body signature params last g' := by
  let symbols := ((CompileOptions.symbols {}).parse frameSource).2
  have hruns : (((CompileOptions.symbols {}).parse frameSource).1.toOption.any fun program =>
      ((SymbolTable.declare program >>= fun _ => checkProgram program).run' symbols).any
        fun checked => checked.statements[0]?.any isFunction) = true := by
    decide +kernel
  have hscopes : symbols.scopes = [] := (SymbolTable.fresh_parse {} frameSource).scopes
  obtain ⟨program, -, hruns⟩ := Except.exists_of_any hruns
  obtain ⟨checked, g', hruns, hfirst⟩ := EStateM.exists_of_any hruns
  obtain ⟨_, g, hdeclare, hcheck⟩ := EStateM.bind_eq_ok_iff.mp hruns
  obtain ⟨stmt, hstmt, hfunction⟩ := (Option.any_eq_true _ _).mp hfirst
  cases stmt with
  | function location header body =>
    obtain ⟨-, -, signature, params, last, -, -, -, hframed, -⟩ :=
      (lowering_follows_checking hdeclare hcheck).1 0 location header body hstmt [] g' rfl
    exact ⟨program, symbols, g, checked, g', location, header, body, signature, params, last,
      hscopes, hdeclare, hcheck, hstmt, hframed⟩
  | _ => cases hfunction

end Programs

end Lowering

end WasmCompiler
