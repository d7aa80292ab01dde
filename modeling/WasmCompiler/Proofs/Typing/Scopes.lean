import WasmCompiler.Proofs.Symbols.Walk
import WasmCompiler.Proofs.Typing.Statements

/-!
# The scopes that checking leaves

An error ends checking in the middle of a program, so what is said here of the table after an
operation (`Leads`) is said of its failures as well. From before statements to after them a table is
walked through (`SymbolTable.Walk`), which closes every scope of a block. The scope of a function is
closed too unless checking stops at one of its parameters (`Program.StopsInParameters`). Then it is
left open, with the parameters before the one at fault in it.

`checkProgram_closes_scopes_iff` says when the scopes are as they were, for every program and every
table. It rests on `checkFunction_of_declared`, which shows what is closed and what is not, and on
`checkParams_cases`, which says how far the parameters get.
-/

namespace WasmCompiler

open SymbolTable (Walk SameGlobals query define closing inScope)

/-! ### Tables after operations

The relations here hold of a table and itself and can be composed, so they hold of a sequence
wherever it stops. -/

/-- The table after an operation, successful or not, is in a relation with the one before. -/
def Leads {α : Type} (R : SymbolTable → SymbolTable → Prop) (m : SymbolM α) : Prop :=
  ∀ t, R t (tableAfter (m t))

instance : Std.Refl Walk :=
  ⟨fun _ => .done⟩

instance : Trans Walk Walk Walk :=
  ⟨Walk.trans⟩

instance : Std.Refl SameGlobals :=
  ⟨SameGlobals.refl⟩

instance : Trans SameGlobals SameGlobals SameGlobals :=
  ⟨SameGlobals.trans⟩

section Leads

variable {α β : Type} {R : SymbolTable → SymbolTable → Prop}

theorem leads_pure [Std.Refl R] (a : α) : Leads R (pure a) :=
  Std.Refl.refl

theorem leads_throw [Std.Refl R] (e : SemanticError) : Leads R (throw e : SymbolM α) :=
  Std.Refl.refl

/-- A question leaves the table as it is, answered or not. -/
theorem leads_query [Std.Refl R] (f : SymbolTable → Except SemanticError α) :
    Leads R (query f) := by
  intro t
  unfold query
  cases f t with
  | ok a => exact Std.Refl.refl t
  | error e => exact Std.Refl.refl t

/-- Either the rest follows in the table that the first operation gives, or nothing does. -/
theorem Leads.bind [Trans R R R] {m : SymbolM α} {k : α → SymbolM β} (hm : Leads R m)
    (hk : ∀ a, Leads R (k a)) : Leads R (m >>= k) := by
  intro t
  have hfirst := hm t
  cases hrun : m t with
  | ok a u =>
    rw [hrun] at hfirst
    rw [EStateM.bind_of_ok hrun]
    exact Trans.trans hfirst (hk a u)
  | error e u =>
    rw [hrun] at hfirst
    rw [EStateM.bind_of_error hrun]
    exact hfirst

/-- A definition leads to a table with one more variable, or nowhere. -/
theorem leads_define [Std.Refl R] {name : String} {type : DataType} {role : Role}
    {location : Location}
    (h : ∀ t : SymbolTable, R t (t.withVariable ⟨name, type, t.nextSlot, role⟩)) :
    Leads R (define name type role location) := by
  intro t
  unfold define
  cases hdefine : t.defineVariable name type role location with
  | ok p =>
    obtain ⟨-, -, hvar, htable⟩ := SymbolTable.defineVariable_eq_ok_iff.mp hdefine
    show R t p.2
    rw [htable, hvar]
    exact h t
  | error e => exact Std.Refl.refl t

/-- What is to be closed is closed, also on the way out of an error. -/
theorem Leads.closing {m : SymbolM α} (hm : Leads R m) (close : SymbolTable → SymbolTable)
    (t : SymbolTable) : ∃ u, R t u ∧ tableAfter (closing close m t) = close u := by
  refine ⟨_, hm t, ?_⟩
  unfold SymbolTable.closing
  cases m t with
  | ok a u => rfl
  | error e u => rfl

/-- A scope leads to what leaving it makes of where its body leads. -/
theorem Leads.inScope {m : SymbolM α} (hm : Leads R m)
    (hscope : ∀ t u : SymbolTable, R t.enterScope u → R t u.exitScope) : Leads R (inScope m) := by
  intro t
  obtain ⟨u, hinner, hafter⟩ := hm.closing SymbolTable.exitScope t.enterScope
  show R t (tableAfter (SymbolTable.closing SymbolTable.exitScope m t.enterScope))
  rw [hafter]
  exact hscope t u hinner

end Leads

/-! ### Statements

One induction over statements serves every relation that declarations and scopes respect. -/

section Statements

variable {R : SymbolTable → SymbolTable → Prop} [Std.Refl R] [Trans R R R]

mutual

/-- Statements declare variables and open and close scopes. Where these lead, statements lead. -/
theorem leads_checkStmt
    (hdeclare : ∀ bindings value, Leads R (checkDeclaration bindings value))
    (hscope : ∀ t u : SymbolTable, R t.enterScope u → R t u.exitScope) (result : DataType) :
    (stmt : Stmt) → Leads R (checkStmt result stmt)
  | .declare location isMutable bindings value => by
    rw [checkStmt]
    exact (hdeclare bindings value).bind fun _ => leads_pure _
  | .function .. => leads_throw _
  | .struct .. => leads_throw _
  | .ret .. | .assign .. | .print .. | .expression .. => by
    rw [checkStmt]
    exact (leads_query _).bind fun _ => leads_pure _
  | .conditional location condition body none => by
    rw [checkStmt]
    refine Leads.bind (leads_query _) fun _ => ?_
    exact ((leads_checkStmts hdeclare hscope result body).inScope hscope).bind fun _ =>
      leads_pure _
  | .conditional location condition body (some alternate) => by
    rw [checkStmt]
    refine Leads.bind (leads_query _) fun _ => ?_
    refine ((leads_checkStmts hdeclare hscope result body).inScope hscope).bind fun _ => ?_
    exact (leads_checkStmt hdeclare hscope result alternate).bind fun _ => leads_pure _
  | .whileLoop location condition body => by
    rw [checkStmt]
    refine Leads.bind (leads_query _) fun _ => ?_
    exact ((leads_checkStmts hdeclare hscope result body).inScope hscope).bind fun _ =>
      leads_pure _
  | .block location body => by
    rw [checkStmt]
    exact ((leads_checkStmts hdeclare hscope result body).inScope hscope).bind fun _ =>
      leads_pure _

/-- One statement after another, up to the first that is refused. -/
theorem leads_checkStmts
    (hdeclare : ∀ bindings value, Leads R (checkDeclaration bindings value))
    (hscope : ∀ t u : SymbolTable, R t.enterScope u → R t u.exitScope) (result : DataType) :
    (stmts : List Stmt) → Leads R (checkStmts result stmts)
  | [] => leads_pure []
  | stmt :: stmts => by
    rw [checkStmts]
    refine Leads.bind (leads_checkStmt hdeclare hscope result stmt) fun _ => ?_
    exact (leads_checkStmts hdeclare hscope result stmts).bind fun _ => leads_pure _

end

end Statements

/-- The names of a declaration are defined up to the first that is refused. -/
theorem walks_defineBindings (bindings : List (Binding × DataType)) :
    Leads Walk (defineBindings bindings) := by
  induction bindings with
  | nil => exact leads_pure []
  | cons entry rest ih =>
    rw [defineBindings]
    refine Leads.bind (leads_define fun _ => .define .done) fun _ => ?_
    exact ih.bind fun _ => leads_pure _

/-- The value and the annotations are looked at before, and change nothing. -/
theorem walks_checkDeclaration (bindings : List Binding) (value : Option Expr) :
    Leads Walk (checkDeclaration bindings value) := by
  rw [checkDeclaration]
  refine Leads.bind (leads_query _) fun initial => ?_
  exact (leads_query _).bind fun _ => walks_defineBindings _

/-- What statements do to a table is a walk, wherever they stop. -/
theorem walks_checkStmts (result : DataType) (stmts : List Stmt) :
    Leads Walk (checkStmts result stmts) :=
  leads_checkStmts walks_checkDeclaration (fun _ _ => Walk.inner) result stmts

/-! ### Parameters

They are taken from a signature and defined in the scope that the function has just opened. -/

/-- What is wrong with a parameter that comes after others, if anything: it is no value, or it has a
name of theirs. -/
def parameterFault? (before : List (Field × DataType)) (param : Field × DataType) :
    Option SemanticError :=
  if param.2.isNone then
    some (.mismatch (.parameter param.1.name) .value (.type param.2) param.1.location)
  else if param.1.name ∈ before.map (·.1.name) then
    some (.duplicate param.1.name param.1.location)
  else none

/-- All parameters are values and have names of their own. -/
structure SoundParameters (params : List (Field × DataType)) : Prop where
  value : ∀ param ∈ params, param.2.isNone = false
  names : (params.map (·.1.name)).Nodup

/-- Of some parameters the first one at fault comes after these, and the error is this. -/
structure FirstFault (params before : List (Field × DataType)) (e : SemanticError) : Prop where
  sound : SoundParameters before
  fault : ∃ param after, params = before ++ param :: after ∧ parameterFault? before param = some e

/-- The innermost scope consists of parameters, the last one first, and the others are given. -/
structure SymbolTable.HoldsParameters (t : SymbolTable) (params : List (Field × DataType))
    (outer : List (List Variable)) : Prop where
  scopes : ∃ scope, t.scopes = scope :: outer ∧
    scope.map (fun var => (var.name, var.type)) = (params.map fun p => (p.1.name, p.2)).reverse

section Parameters

variable {params before : List (Field × DataType)} {param : Field × DataType} {e : SemanticError}
  {t : SymbolTable} {outer : List (List Variable)}

/-- A parameter is sound if it is a value and no parameter before has its name. -/
theorem parameterFault?_eq_none_iff :
    parameterFault? before param = none ↔
      param.2.isNone = false ∧ param.1.name ∉ before.map (·.1.name) := by
  unfold parameterFault?
  cases param.2.isNone with
  | true => simp
  | false => simp

/-- Parameters stay sound with one more that has no fault. -/
theorem SoundParameters.snoc (h : SoundParameters before)
    (hparam : parameterFault? before param = none) : SoundParameters (before ++ [param]) := by
  obtain ⟨hvalue, hname⟩ := parameterFault?_eq_none_iff.mp hparam
  refine ⟨?_, ?_⟩
  · rw [List.forall_mem_append]
    exact ⟨h.value, by simpa using hvalue⟩
  · rw [List.map_append, List.nodup_append]
    refine ⟨h.names, by simp, ?_⟩
    intro name hmem other hother heq
    obtain rfl : other = param.1.name := by simpa using hother
    exact hname (heq ▸ hmem)

/-- Parameters of which one is at fault are not all sound. -/
theorem FirstFault.not_sound (h : FirstFault params before e) : ¬ SoundParameters params := by
  intro hsound
  obtain ⟨param, after, rfl, hfault⟩ := h.fault
  have hnone : parameterFault? before param = none := by
    refine parameterFault?_eq_none_iff.mpr ⟨hsound.value param (by simp), fun hmem => ?_⟩
    have hnames := hsound.names
    rw [List.map_append, List.map_cons, List.nodup_append] at hnames
    exact hnames.2.2 _ hmem _ (List.mem_cons_self ..) rfl
  rw [hnone] at hfault
  cases hfault

/-- A function begins with an empty scope. -/
theorem SymbolTable.holdsParameters_enterFunction (t : SymbolTable) :
    t.enterFunction.HoldsParameters [] t.scopes :=
  ⟨[], rfl, rfl⟩

theorem SymbolTable.HoldsParameters.tail (h : t.HoldsParameters params outer) :
    t.scopes.tail = outer := by
  obtain ⟨scope, hscopes, -⟩ := h.scopes
  rw [hscopes]
  rfl

theorem SymbolTable.HoldsParameters.open (h : t.HoldsParameters params outer) :
    t.scopes ≠ [] := by
  obtain ⟨scope, hscopes, -⟩ := h.scopes
  simp [hscopes]

/-- The scope has a variable of a name if a parameter has it. -/
theorem SymbolTable.HoldsParameters.findIn_eq_none_iff (h : t.HoldsParameters params outer)
    {name : String} :
    SymbolTable.findIn name (t.scopes.headD []) = none ↔ name ∉ params.map (·.1.name) := by
  obtain ⟨scope, hscopes, hscope⟩ := h.scopes
  have hnames : scope.map (·.name) = (params.map (·.1.name)).reverse := by
    have hfst := congrArg (List.map Prod.fst) hscope
    simpa [List.map_reverse, Function.comp_def] using hfst
  rw [← List.mem_reverse, ← hnames, hscopes]
  simp [SymbolTable.findIn]

/-- A defined parameter is the first of the scope. -/
theorem SymbolTable.HoldsParameters.withVariable (h : t.HoldsParameters params outer) (slot : Nat)
    (role : Role) :
    (t.withVariable ⟨param.1.name, param.2, slot, role⟩).HoldsParameters (params ++ [param])
      outer := by
  obtain ⟨scope, hscopes, hscope⟩ := h.scopes
  refine ⟨⟨param.1.name, param.2, slot, role⟩ :: scope, ?_, ?_⟩
  · simp [SymbolTable.withVariable, hscopes]
  · simp [hscope]

/-- A parameter at fault stops checking, and nothing of it is defined. -/
theorem checkParams_fault {rest : List (Field × DataType)} (ht : t.HoldsParameters params outer)
    (hfault : parameterFault? params param = some e) :
    checkParams (param :: rest) t = .error e t := by
  obtain ⟨field, type⟩ := param
  unfold parameterFault? at hfault
  split at hfault
  · rename_i hnone
    obtain rfl := Option.some.inj hfault
    rw [checkParams, if_pos hnone]
    rfl
  split at hfault
  · rename_i hvalue hname
    obtain rfl := Option.some.inj hfault
    -- the scope holds the parameters before, so a name among them is found
    have hfound : SymbolTable.findIn field.name (t.scopes.headD []) ≠ none :=
      fun hnew => ht.findIn_eq_none_iff.mp hnew hname
    have hdefine : define field.name type .parameter field.location t =
        .error (.duplicate field.name field.location) t :=
      define_eq_error_iff.mpr
        ⟨SymbolTable.defineVariable_eq_error_iff.mpr (.inr ⟨hfound, rfl⟩), rfl⟩
    rw [checkParams, if_neg hvalue]
    exact EStateM.bind_of_error hdefine
  · cases hfault

/-- A parameter that is not at fault is defined, and the others follow. -/
theorem checkParams_sound {rest : List (Field × DataType)} (ht : t.HoldsParameters params outer)
    (hsound : parameterFault? params param = none) :
    checkParams (param :: rest) t =
      checkParams rest (t.withVariable ⟨param.1.name, param.2, t.nextSlot, .parameter⟩) := by
  obtain ⟨field, type⟩ := param
  obtain ⟨hvalue, hname⟩ := parameterFault?_eq_none_iff.mp hsound
  have hdefine : define field.name type .parameter field.location t =
      .ok ⟨field.name, type, t.nextSlot, .parameter⟩
        (t.withVariable ⟨field.name, type, t.nextSlot, .parameter⟩) := by
    refine define_eq_ok_iff.mpr (SymbolTable.defineVariable_eq_ok_iff.mpr
      ⟨ht.open, ht.findIn_eq_none_iff.mpr hname, rfl, rfl⟩)
  rw [checkParams, if_neg (by simpa using hvalue)]
  exact EStateM.bind_of_ok hdefine

/-- Parameters are defined one after another, all of them or those before the first at fault. -/
theorem checkParams_cases (done : List (Field × DataType)) (hdone : SoundParameters done)
    (ht : t.HoldsParameters done outer) :
    (∃ t', checkParams params t = .ok () t' ∧ SoundParameters (done ++ params) ∧
      t'.HoldsParameters (done ++ params) outer) ∨
    ∃ before e t', checkParams params t = .error e t' ∧ FirstFault (done ++ params) before e ∧
      t'.HoldsParameters before outer := by
  induction params generalizing done t with
  | nil => exact .inl ⟨t, rfl, by rwa [List.append_nil], by rwa [List.append_nil]⟩
  | cons param rest ih =>
    -- the first parameter with a fault stops checking
    cases hfault : parameterFault? done param with
    | some e =>
      have hfirst : FirstFault (done ++ param :: rest) done e := ⟨hdone, param, rest, rfl, hfault⟩
      exact .inr ⟨done, e, t, checkParams_fault ht hfault, hfirst, ht⟩
    | none =>
      have hnext := ih (done ++ [param]) (hdone.snoc hfault) (ht.withVariable t.nextSlot .parameter)
      rw [List.append_assoc, List.singleton_append, ← checkParams_sound ht hfault] at hnext
      exact hnext

end Parameters

/-- Parameters change nothing but variables, also where one is at fault. -/
theorem sameGlobals_checkParams (params : List (Field × DataType)) :
    Leads SameGlobals (checkParams params) := by
  induction params with
  | nil => exact leads_pure ()
  | cons param rest ih =>
    obtain ⟨field, type⟩ := param
    have hdefine : Leads SameGlobals (define field.name type .parameter field.location) :=
      leads_define fun _ => ⟨rfl, rfl, rfl, rfl⟩
    rw [checkParams]
    split
    · exact (leads_throw _).bind fun _ => hdefine.bind fun _ => ih
    · exact hdefine.bind fun _ => ih

/-! ### Functions

The scope is closed behind the body, whether or not the body is accepted. -/

/-- Checking a statement that is not in any function stops in the parameters of the function that it
is, after these and with this error. -/
def Stmt.StopsInParameters (t : SymbolTable) (before : List (Field × DataType))
    (e : SemanticError) : Stmt → Prop
  | .function _ header _ => ∃ signature, t.function? header.name = some signature ∧
      FirstFault (header.params.zip signature.params) before e
  | _ => False

/-- The globals are as before, and so are the scopes unless an operation stops in parameters. Then
their scope is left open. -/
structure LeavesScopes {α : Type} (t : SymbolTable)
    (stops : List (Field × DataType) → SemanticError → Prop)
    (result : EStateM.Result SemanticError SymbolTable α) : Prop where
  globals : t.SameGlobals (tableAfter result)
  scopes : (tableAfter result).scopes = t.scopes ∧ (∀ before e, ¬ stops before e) ∨
    ∃ before e t', stops before e ∧ result = .error e t' ∧ t'.HoldsParameters before t.scopes

section Functions

variable {t : SymbolTable}

theorem LeavesScopes.map {α β : Type} {stops : List (Field × DataType) → SemanticError → Prop}
    {m : SymbolM α} (h : LeavesScopes t stops (m t)) (f : α → β) :
    LeavesScopes t stops ((m >>= fun a => pure (f a)) t) := by
  obtain ⟨hglobals, hscopes⟩ := h
  cases hrun : m t with
  | ok a u =>
    rw [hrun] at hglobals hscopes
    rw [EStateM.bind_of_ok hrun]
    refine ⟨hglobals, hscopes.imp_right ?_⟩
    rintro ⟨before, e, t', -, herror, -⟩
    cases herror
  | error e u =>
    rw [hrun] at hglobals hscopes
    rw [EStateM.bind_of_error hrun]
    refine ⟨hglobals, hscopes.imp_right ?_⟩
    rintro ⟨before, e', t', hstops, herror, hholds⟩
    obtain ⟨rfl, rfl⟩ := EStateM.Result.error.inj herror
    exact ⟨before, e, u, hstops, rfl, hholds⟩

/-- A scope that is left open is one more than there were. -/
theorem LeavesScopes.scopes_eq_iff {α : Type}
    {stops : List (Field × DataType) → SemanticError → Prop}
    {result : EStateM.Result SemanticError SymbolTable α} (h : LeavesScopes t stops result) :
    (tableAfter result).scopes = t.scopes ↔ ∀ before e, ¬ stops before e := by
  rcases h.scopes with ⟨hkept, hpasses⟩ | ⟨before, e, t', hstops, rfl, hholds⟩
  · exact ⟨fun _ => hpasses, fun _ => hkept⟩
  · constructor
    · intro hkept
      obtain ⟨scope, hscopes, -⟩ := hholds.scopes
      have hmore : scope :: t.scopes = t.scopes := hscopes.symm.trans hkept
      exact absurd hmore (List.cons_ne_self _ _)
    · exact fun hpasses => absurd hstops (hpasses before e)

/-- Without a signature no scope is opened. -/
theorem checkFunction_of_undeclared {location : Location} {header : FunctionHeader}
    {body : List Stmt} (h : t.function? header.name = none) :
    checkFunction location header body t =
      .error (.undefined .function header.name location) t := by
  unfold checkFunction
  apply EStateM.bind_of_error
  simp only [query, h]

/-- A declared function opens its scope, and closes it behind its parameters only. -/
theorem checkFunction_of_declared {location : Location} {header : FunctionHeader}
    {body : List Stmt} {signature : Signature} (h : t.function? header.name = some signature) :
    checkFunction location header body t =
      (checkParams (header.params.zip signature.params) >>= fun _ =>
        closing SymbolTable.exitFunction (checkStmts signature.result body)) t.enterFunction := by
  unfold checkFunction
  refine @EStateM.bind_of_ok _ _ _ _ t t _ _ signature ?_
  simp only [query, h]

/-- Either the parameters are sound and the scope is closed behind the body, or the first one at
fault leaves it open. -/
theorem leavesScopes_checkFunction (location : Location) (header : FunctionHeader)
    (body : List Stmt) :
    LeavesScopes t
      (fun before e => Stmt.StopsInParameters t before e (.function location header body))
      (checkFunction location header body t) := by
  cases hfound : t.function? header.name with
  | none =>
    rw [checkFunction_of_undeclared hfound]
    refine ⟨.refl t, .inl ⟨rfl, ?_⟩⟩
    rintro before e ⟨signature, hsignature, -⟩
    rw [hfound] at hsignature
    cases hsignature
  | some signature =>
    rw [checkFunction_of_declared hfound]
    have henter : t.SameGlobals t.enterFunction := ⟨rfl, rfl, rfl, rfl⟩
    have hparams := sameGlobals_checkParams (header.params.zip signature.params) t.enterFunction
    have hnone : SoundParameters [] := ⟨by simp, by simp⟩
    -- either all parameters are sound and the scope is closed, or one stops checking inside it
    rcases @checkParams_cases (header.params.zip signature.params) _ _ [] hnone
        t.holdsParameters_enterFunction with
      ⟨t₁, hrun, hsound, hholds⟩ | ⟨before, e, t₁, hrun, hfault, hholds⟩
    · rw [hrun] at hparams
      rw [EStateM.bind_of_ok hrun]
      obtain ⟨u, hbody, hafter⟩ :=
        (walks_checkStmts signature.result body).closing SymbolTable.exitFunction t₁
      refine ⟨?_, .inl ⟨?_, ?_⟩⟩
      · rw [hafter]
        have hinside : t.SameGlobals u := henter.trans (hparams.trans hbody.sameGlobals)
        exact hinside.trans ⟨rfl, rfl, rfl, rfl⟩
      · rw [hafter]
        show u.scopes.tail = t.scopes
        rw [hbody.scopes_tail, hholds.tail]
      · rintro before e ⟨signature', hsignature, hfault⟩
        obtain rfl : signature = signature' := Option.some.inj (hfound.symm.trans hsignature)
        exact hfault.not_sound hsound
    · rw [hrun] at hparams
      rw [EStateM.bind_of_error hrun]
      exact ⟨henter.trans hparams, .inr ⟨before, e, t₁, ⟨signature, hfound, hfault⟩, rfl, hholds⟩⟩

/-- Of the statements outside of functions only a function opens a scope. -/
theorem leavesScopes_checkTopLevel (stmt : Stmt) :
    LeavesScopes t (fun before e => stmt.StopsInParameters t before e) (checkTopLevel stmt t) := by
  cases stmt with
  | function location header body =>
    exact (leavesScopes_checkFunction location header body).map (Stmt.function location header)
  | _ => exact ⟨.refl t, .inl ⟨rfl, fun _ _ h => h⟩⟩

/-! ### Programs

The globals do not change, so it is the signatures of the table before that decide where checking
stops. -/

/-- Checking statements that are not in any function stops in the parameters of the first function
that has one at fault, if all before it passes. -/
def Stmt.SomeStopsInParameters (stmts : List Stmt) (t : SymbolTable)
    (before : List (Field × DataType)) (e : SemanticError) : Prop :=
  ∃ earlier stmt later, stmts = earlier ++ stmt :: later ∧
    (∃ checked t', earlier.mapM checkTopLevel t = .ok checked t') ∧
    stmt.StopsInParameters t before e

/-- Checking a program stops in the parameters of a function, after these and with this error. -/
def Program.StopsInParameters (program : Program) (t : SymbolTable)
    (before : List (Field × DataType)) (e : SemanticError) : Prop :=
  Stmt.SomeStopsInParameters program.statements t before e

variable {stmt : Stmt} {stmts : List Stmt} {before : List (Field × DataType)} {e : SemanticError}

/-- Whether a function stops in its parameters is decided by its signature. -/
theorem Stmt.StopsInParameters.congr {t' : SymbolTable} (h : t.SameGlobals t') :
    stmt.StopsInParameters t' before e ↔ stmt.StopsInParameters t before e := by
  cases stmt with
  | function location header body =>
    simp only [Stmt.StopsInParameters, SymbolTable.function?, h.functions]
  | _ => exact Iff.rfl

/-- Checking stops in the first statement or, if that passes, in one of the others. -/
theorem Stmt.someStopsInParameters_cons_iff :
    Stmt.SomeStopsInParameters (stmt :: stmts) t before e ↔
      stmt.StopsInParameters t before e ∨
        ∃ checked t', checkTopLevel stmt t = .ok checked t' ∧
          Stmt.SomeStopsInParameters stmts t' before e := by
  -- what a declaration stops at depends on the globals only, and checking leaves those
  have hglobals {checked : Stmt} {t' : SymbolTable} (h : checkTopLevel stmt t = .ok checked t') :
      t.SameGlobals t' := by
    have hleaves := (@leavesScopes_checkTopLevel t stmt).globals
    rwa [h] at hleaves
  constructor
  · rintro ⟨_ | ⟨first, earlier⟩, stmt', later, hsplit, ⟨checked, t', hrun⟩, hstops⟩
    · obtain ⟨rfl, rfl⟩ := List.cons.inj hsplit
      exact .inl hstops
    · obtain ⟨rfl, rfl⟩ := List.cons.inj hsplit
      obtain ⟨stmt₁, t₁, hfirst, rest, hrest, -⟩ := EStateM.mapM_cons_eq_ok_iff.mp hrun
      exact .inr ⟨stmt₁, t₁, hfirst, earlier, stmt', later, rfl, ⟨rest, t', hrest⟩,
        (StopsInParameters.congr (hglobals hfirst)).mpr hstops⟩
  · rintro (hstops | ⟨stmt₁, t₁, hfirst, earlier, stmt', later, rfl, ⟨rest, t₂, hrest⟩, hstops⟩)
    · exact ⟨[], stmt, stmts, rfl, ⟨[], t, rfl⟩, hstops⟩
    · refine ⟨stmt :: earlier, stmt', later, rfl, ⟨stmt₁ :: rest, t₂, ?_⟩,
        (StopsInParameters.congr (hglobals hfirst)).mp hstops⟩
      rw [List.mapM_cons, EStateM.bind_of_ok hfirst, EStateM.bind_of_ok hrest]
      rfl

/-- By induction over the statements: the scopes are closed up to the first that stops in its
parameters, and after it nothing is checked. -/
theorem leavesScopes_mapM (stmts : List Stmt) :
    LeavesScopes t (Stmt.SomeStopsInParameters stmts t) (stmts.mapM checkTopLevel t) := by
  induction stmts generalizing t with
  | nil =>
    refine ⟨.refl t, .inl ⟨rfl, ?_⟩⟩
    rintro before e ⟨earlier, stmt, later, hsplit, -⟩
    simp at hsplit
  | cons stmt stmts ih =>
    obtain ⟨hglobals, hscopes⟩ := @leavesScopes_checkTopLevel t stmt
    rw [List.mapM_cons]
    cases hrun : checkTopLevel stmt t with
    | ok checked t₁ =>
      rw [hrun] at hglobals hscopes
      -- a declaration that passed has closed its scope
      obtain ⟨hkept, hpasses⟩ : t₁.scopes = t.scopes ∧ _ := by
        rcases hscopes with hkept | ⟨_, _, _, -, herror, -⟩
        · exact hkept
        · cases herror
      rw [EStateM.bind_of_ok hrun]
      obtain ⟨hglobals', hscopes'⟩ := (@ih t₁).map (checked :: ·)
      refine ⟨hglobals.trans hglobals', ?_⟩
      rw [hkept] at hscopes'
      rcases hscopes' with ⟨hkept', hpass⟩ | ⟨before, e, t', hstops, herror, hholds⟩
      · refine .inl ⟨hkept', fun before e hstops => ?_⟩
        rcases Stmt.someStopsInParameters_cons_iff.mp hstops with hfirst | ⟨_, t', hok, hlater⟩
        · exact hpasses before e hfirst
        · rw [hrun] at hok
          obtain ⟨-, rfl⟩ := EStateM.Result.ok.inj hok
          exact hpass before e hlater
      · refine .inr ⟨before, e, t', ?_, herror, hholds⟩
        exact Stmt.someStopsInParameters_cons_iff.mpr (.inr ⟨checked, t₁, hrun, hstops⟩)
    | error e' t₁ =>
      rw [hrun] at hglobals hscopes
      rw [EStateM.bind_of_error hrun]
      refine ⟨hglobals, hscopes.imp ?_ ?_⟩
      · rintro ⟨hkept, hpasses⟩
        refine ⟨hkept, fun before e hstops => ?_⟩
        rcases Stmt.someStopsInParameters_cons_iff.mp hstops with hfirst | ⟨_, t', hok, -⟩
        · exact hpasses before e hfirst
        · rw [hrun] at hok
          cases hok
      · rintro ⟨before, e, t', hstops, herror, hholds⟩
        obtain ⟨rfl, rfl⟩ := EStateM.Result.error.inj herror
        exact ⟨before, e', t₁, Stmt.someStopsInParameters_cons_iff.mpr (.inl hstops), rfl, hholds⟩

end Functions

/-- Checking keeps the functions, the structs and the strings of every table. It leaves the scopes
as they were exactly if it does not stop in the parameters of a function. If it does, one scope is
left open, with the parameters before the one at fault. -/
theorem checkProgram_closes_scopes_iff (program : Program) (t : SymbolTable) :
    t.SameGlobals (tableAfter (checkProgram program t)) ∧
      ((tableAfter (checkProgram program t)).scopes = t.scopes ↔
        ∀ before e, ¬ program.StopsInParameters t before e) ∧
      ((tableAfter (checkProgram program t)).scopes = t.scopes ∨
        ∃ before e t', program.StopsInParameters t before e ∧
          checkProgram program t = .error e t' ∧ t'.HoldsParameters before t.scopes) := by
  have hleaves : LeavesScopes t (program.StopsInParameters t) (checkProgram program t) :=
    (leavesScopes_mapM program.statements).map Program.mk
  exact ⟨hleaves.globals, hleaves.scopes_eq_iff, hleaves.scopes.imp_left And.left⟩

/-- A parameter of a type without values leaves the scope of its function open. -/
example :
    let header : FunctionHeader := ⟨"f", [⟨"a", .named "none", ⟨1, 8⟩⟩], none, false⟩
    let t := { SymbolTable.empty defaultMemoryStart with functions := [("f", ⟨[.none], .none⟩)] }
    (tableAfter (checkProgram ⟨[.function ⟨1, 1⟩ header []]⟩ t)).scopes = [[]] :=
  rfl

end WasmCompiler
