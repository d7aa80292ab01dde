import WasmCompiler.Proofs.Symbols.Registration

/-!
# Tables that look alike

Checking asks a table for variables, functions and structs by name. It sees neither the order in
which the functions were registered nor the string pool, so two tables that differ in these only
(`SymbolTable.Alike`) lead to the same result. `Transfers` states this for an operation on tables;
it holds of checking parameters and statements and of registering declarations.

The lemmas come in three layers. What a table is asked for is the same in both
(`SymbolTable.Alike`); so expressions have the same types (`typeOf_congr`) and every question that
checking asks has the same answer; so every operation that is put together from questions,
definitions and scopes goes the same way (`transfers_checkStmt`, `transfers_declare`).
-/

namespace WasmCompiler

namespace SymbolTable

variable {t u : SymbolTable}

/-- Tables that differ in the order of their functions and in their strings at most. -/
structure Alike (t u : SymbolTable) : Prop where
  scopes : u.scopes = t.scopes
  function? : ∀ name, u.function? name = t.function? name
  structs : u.structs = t.structs
  nextSlot : u.nextSlot = t.nextSlot
  declared : u.declared = t.declared
  exportsMemory : u.exportsMemory = t.exportsMemory

namespace Alike

theorem refl (t : SymbolTable) : Alike t t :=
  ⟨rfl, fun _ => rfl, rfl, rfl, rfl, rfl⟩

/-- Both tables are asked for the same, so neither goes before the other. -/
theorem symm (h : Alike t u) : Alike u t :=
  ⟨h.scopes.symm, fun name => (h.function? name).symm, h.structs.symm, h.nextSlot.symm,
    h.declared.symm, h.exportsMemory.symm⟩

theorem lookupVariable? (h : Alike t u) (name : String) :
    u.lookupVariable? name = t.lookupVariable? name := by
  rw [SymbolTable.lookupVariable?, SymbolTable.lookupVariable?, h.scopes]

theorem struct? (h : Alike t u) (name : String) : u.struct? name = t.struct? name := by
  rw [SymbolTable.struct?, SymbolTable.struct?, h.structs]

/-- A name can be called with the same signature. -/
theorem callable? (h : Alike t u) (name : String) : u.callable? name = t.callable? name := by
  simp only [SymbolTable.callable?, h.function?, h.struct?]

/-- The names that a declaration may not take are the same. -/
theorem isTaken (h : Alike t u) (name : String) : u.isTaken name = t.isTaken name := by
  simp only [SymbolTable.isTaken, h.function?, h.struct?]

theorem enterScope (h : Alike t u) : Alike t.enterScope u.enterScope :=
  { h with scopes := congrArg ([] :: ·) h.scopes }

theorem exitScope (h : Alike t u) : Alike t.exitScope u.exitScope :=
  { h with scopes := congrArg List.tail h.scopes }

/-- A function begins with the same slots in both. -/
theorem enterFunction (h : Alike t u) : Alike t.enterFunction u.enterFunction :=
  { h with scopes := congrArg ([] :: ·) h.scopes, nextSlot := rfl, declared := rfl }

/-- One more variable in both makes no difference between them. -/
theorem withVariable (h : Alike t u) (var : Variable) :
    Alike (t.withVariable var) (u.withVariable var) := by
  obtain ⟨hscopes, hfunctions, hstructs, hnext, hdeclared, hexports⟩ := h
  refine ⟨?_, hfunctions, hstructs, ?_, ?_, hexports⟩
  · simp only [SymbolTable.withVariable, hscopes]
  · simp only [SymbolTable.withVariable, hnext]
  · simp only [SymbolTable.withVariable, hdeclared]

/-- A variable gets the same slots in tables that look alike. -/
theorem defineVariable (h : Alike t u) {name : String} {type : DataType} {role : Role}
    {location : Location} {var : Variable} {t' : SymbolTable}
    (hdefine : t.defineVariable name type role location = .ok (var, t')) :
    ∃ u', u.defineVariable name type role location = .ok (var, u') ∧ Alike t' u' := by
  obtain ⟨hopen, hfree, hvar, rfl⟩ := defineVariable_eq_ok_iff.mp hdefine
  refine ⟨u.withVariable var, defineVariable_eq_ok_iff.mpr ⟨?_, ?_, ?_, rfl⟩, h.withVariable var⟩
  · rwa [h.scopes]
  · rwa [h.scopes]
  · rwa [h.nextSlot]

end Alike

end SymbolTable

open SymbolTable (Alike)

/-! ### Types of expressions

These are equations between answers, errors included, so no case is split on success. -/

section Types

variable {t u : SymbolTable}

mutual

/-- An expression has the same type in both tables, or the same error. -/
theorem typeOf_congr (h : Alike t u) : (e : Expr) → typeOf u e = typeOf t e
  | .integer .. | .float .. | .string .. => rfl
  | .identifier location name => by
    simp only [typeOf, h.lookupVariable?]
  | .unary location op operand => by
    simp only [typeOf, typeOf_congr h operand]
  | .binary location op left right => by
    simp only [typeOf, typeOf_congr h left, typeOf_congr h right]
  | .call location callee args => by
    simp only [typeOf, h.callable?]
    split
    · rfl
    · rename_i signature _
      rw [checkArgs_congr h callee 1 args signature.params]
  | .member location base name => by
    simp only [typeOf, typeOf_congr h base]
  | .index location base index => by
    simp only [typeOf, typeOf_congr h base, typeOf_congr h index]
  | .array location [] => rfl
  | .array location (first :: rest) => by
    simp only [typeOf, typeOf_congr h first, fun type => checkItems_congr h type rest]
  | .tuple location items => by
    simp only [typeOf, elementTypes_congr h items]

theorem elementTypes_congr (h : Alike t u) : (items : List Expr) →
    elementTypes u items = elementTypes t items
  | [] => rfl
  | item :: items => by
    simp only [elementTypes, typeOf_congr h item, elementTypes_congr h items]

theorem checkItems_congr (h : Alike t u) (element : DataType) : (items : List Expr) →
    checkItems u element items = checkItems t element items
  | [] => rfl
  | item :: items => by
    simp only [checkItems, typeOf_congr h item, checkItems_congr h element items]

theorem checkArgs_congr (h : Alike t u) (callee : String) (position : Nat) :
    (args : List Expr) → (params : List DataType) →
      checkArgs u callee position args params = checkArgs t callee position args params
  | [], _ => rfl
  | _ :: _, [] => rfl
  | arg :: args, param :: params => by
    simp only [checkArgs, typeOf_congr h arg, checkArgs_congr h callee (position + 1) args params]

end

/-- The annotation of a binding is resolved to the same type. -/
theorem bindingType_congr (h : Alike t u) (initial : Option DataType) (hasValue : Bool) :
    bindingType u initial hasValue = bindingType t initial hasValue := by
  funext b
  simp only [bindingType, declaredType, SymbolTable.resolve_congr h.structs]

/-- The target is found in both or in neither, with the same type. -/
theorem checkAssignment_congr (h : Alike t u) (target value : Expr) :
    checkAssignment u target value = checkAssignment t target value := by
  simp only [checkAssignment, expectType, h.lookupVariable?, typeOf_congr h]

/-- A returned value fits the result in both or in neither. -/
theorem checkReturn_congr (h : Alike t u) (result : DataType) (location : Location)
    (value : Option Expr) : checkReturn u result location value =
      checkReturn t result location value := by
  cases value with
  | none => rfl
  | some value => simp only [checkReturn, expectType, typeOf_congr h]

end Types

/-! ### Operations on tables that look alike

Only what succeeds is carried over. Nothing is said about the table of an error. -/

/-- What an operation gives in a table it gives in every table that looks alike, and the tables
after it look alike again. -/
def Transfers {α : Type} (m : SymbolM α) : Prop :=
  ∀ t u, Alike t u → ∀ a t', m t = .ok a t' → ∃ u', m u = .ok a u' ∧ Alike t' u'

section Transfers

variable {α β : Type}

theorem transfers_pure (a : α) : Transfers (pure a) := by
  intro t u h b t' hb
  obtain ⟨rfl, rfl⟩ := EStateM.pure_eq_ok_iff.mp hb
  exact ⟨u, rfl, h⟩

theorem transfers_throw (e : SemanticError) : Transfers (throw e : SymbolM α) := by
  intro t u h b t' hb
  cases hb

/-- Steps that go the same way make sequences that do. -/
theorem Transfers.bind {m : SymbolM α} {k : α → SymbolM β} (hm : Transfers m)
    (hk : ∀ a, Transfers (k a)) : Transfers (m >>= k) := by
  intro t u h b t' hb
  obtain ⟨a, t₁, ha, hb⟩ := EStateM.bind_eq_ok_iff.mp hb
  obtain ⟨u₁, ha', h₁⟩ := hm t u h a t₁ ha
  obtain ⟨u', hb', h'⟩ := hk a t₁ u₁ h₁ b t' hb
  exact ⟨u', EStateM.bind_eq_ok_iff.mpr ⟨a, u₁, ha', hb'⟩, h'⟩

/-- A question whose answer is the same may be asked. -/
theorem transfers_query {f : SymbolTable → Except SemanticError α}
    (hf : ∀ {t u}, Alike t u → f u = f t) : Transfers (SymbolTable.query f) := by
  intro t u h a t' ha
  simp only [SymbolTable.query, hf h] at ha ⊢
  split at ha
  · rename_i b hb
    obtain ⟨rfl, rfl⟩ := EStateM.Result.ok.inj ha
    exact ⟨u, rfl, h⟩
  · cases ha

/-- A definition gives the variable the same slots in both. -/
theorem transfers_define (name : String) (type : DataType) (role : Role) (location : Location) :
    Transfers (SymbolTable.define name type role location) := by
  intro t u h var t' hvar
  rw [SymbolTable.define] at hvar
  split at hvar
  · rename_i var' t₁ hdefine
    obtain ⟨rfl, rfl⟩ := EStateM.Result.ok.inj hvar
    obtain ⟨u', hdefine', h'⟩ := h.defineVariable hdefine
    exact ⟨u', by rw [SymbolTable.define, hdefine'], h'⟩
  · cases hvar

/-- A change that keeps tables alike may be made. -/
theorem transfers_modify {f : SymbolTable → SymbolTable}
    (hf : ∀ {t u}, Alike t u → Alike (f t) (f u)) : Transfers (modify f) := by
  intro t u h a t' ha
  obtain rfl := EStateM.modify_eq_ok_iff.mp ha
  exact ⟨f u, rfl, hf h⟩

/-- What is done at the end has to keep tables alike as well. -/
theorem Transfers.closing {close : SymbolTable → SymbolTable} {m : SymbolM α} (hm : Transfers m)
    (hclose : ∀ {t u}, Alike t u → Alike (close t) (close u)) :
    Transfers (SymbolTable.closing close m) := by
  intro t u h a t' ha
  rw [SymbolTable.closing] at ha
  split at ha
  · rename_i a' t₁ hrun
    obtain ⟨rfl, rfl⟩ := EStateM.Result.ok.inj ha
    obtain ⟨u₁, hrun', h₁⟩ := hm t u h _ t₁ hrun
    exact ⟨close u₁, by rw [SymbolTable.closing, hrun'], hclose h₁⟩
  · cases ha

/-- A scope is opened and closed in both. -/
theorem Transfers.inScope {m : SymbolM α} (hm : Transfers m) :
    Transfers (SymbolTable.inScope m) :=
  (transfers_modify Alike.enterScope).bind fun _ => hm.closing Alike.exitScope

end Transfers

/-! ### Checking

The rest follows the definitions. -/

/-- The names of a declaration are defined one after another. -/
theorem transfers_defineBindings (bindings : List (Binding × DataType)) :
    Transfers (defineBindings bindings) := by
  induction bindings with
  | nil => exact transfers_pure []
  | cons entry rest ih =>
    rw [defineBindings]
    apply (transfers_define _ _ _ _).bind
    intro _
    exact ih.bind fun _ => transfers_pure _

/-- The value and the annotations are looked at before a name is defined. -/
theorem transfers_checkDeclaration (bindings : List Binding) (value : Option Expr) :
    Transfers (checkDeclaration bindings value) := by
  rw [checkDeclaration]
  have hinitial {t u : SymbolTable} (h : Alike t u) :
      initialType u value = initialType t value := by
    cases value with
    | none => rfl
    | some e => simp only [initialType, typeOf_congr h]
  apply (transfers_query hinitial).bind
  intro initial
  refine (transfers_query fun h => ?_).bind fun _ => transfers_defineBindings _
  rw [bindingType_congr h]

theorem transfers_checkCondition (condition : Expr) :
    Transfers (SymbolTable.query (checkCondition · condition)) :=
  transfers_query fun h => by simp only [checkCondition, typeOf_congr h]

mutual

/-- By induction over the statement; each form is a sequence of questions, declarations and
scopes. -/
theorem transfers_checkStmt (result : DataType) : (stmt : Stmt) → Transfers (checkStmt result stmt)
  | .declare location isMutable bindings value => by
    rw [checkStmt]
    exact (transfers_checkDeclaration bindings value).bind fun _ => transfers_pure _
  | .function .. => transfers_throw _
  | .struct .. => transfers_throw _
  | .ret location value => by
    rw [checkStmt]
    apply (transfers_query fun h => checkReturn_congr h result location value).bind
    exact fun _ => transfers_pure _
  | .assign location target value => by
    rw [checkStmt]
    apply (transfers_query fun h => checkAssignment_congr h target value).bind
    exact fun _ => transfers_pure _
  | .conditional location condition body none => by
    rw [checkStmt]
    apply (transfers_checkCondition condition).bind
    intro _
    exact (transfers_checkStmts result body).inScope.bind fun _ => transfers_pure _
  | .conditional location condition body (some alternate) => by
    rw [checkStmt]
    apply (transfers_checkCondition condition).bind
    intro _
    apply (transfers_checkStmts result body).inScope.bind
    intro _
    exact (transfers_checkStmt result alternate).bind fun _ => transfers_pure _
  | .whileLoop location condition body => by
    rw [checkStmt]
    apply (transfers_checkCondition condition).bind
    intro _
    exact (transfers_checkStmts result body).inScope.bind fun _ => transfers_pure _
  | .print location value => by
    rw [checkStmt]
    -- printing asks for nothing but the type of its value
    refine (transfers_query fun h => ?_).bind fun _ => transfers_pure _
    simp only [checkPrint, typeOf_congr h]
  | .expression location value => by
    rw [checkStmt]
    exact (transfers_query fun h => typeOf_congr h value).bind fun _ => transfers_pure _
  | .block location body => by
    rw [checkStmt]
    exact (transfers_checkStmts result body).inScope.bind fun _ => transfers_pure _

theorem transfers_checkStmts (result : DataType) : (stmts : List Stmt) →
    Transfers (checkStmts result stmts)
  | [] => transfers_pure []
  | stmt :: stmts => by
    rw [checkStmts]
    apply (transfers_checkStmt result stmt).bind
    intro _
    exact (transfers_checkStmts result stmts).bind fun _ => transfers_pure _

end

/-- A parameter without a value is an error before anything is asked. -/
theorem transfers_checkParams (params : List (Field × DataType)) :
    Transfers (checkParams params) := by
  induction params with
  | nil => exact transfers_pure ()
  | cons param rest ih =>
    obtain ⟨field, type⟩ := param
    rw [checkParams]
    split
    · exact (transfers_throw _).bind fun _ => (transfers_define _ _ _ _).bind fun _ => ih
    · exact (transfers_define _ _ _ _).bind fun _ => ih

/-! ### Registering

Registering a program asks for names that are taken and for types of fields, and adds to what looks
alike in both tables. -/

/-- The types of fields are resolved alike, and a repeated name is found in the fields alone. -/
theorem SymbolTable.resolveFields_congr {t u : SymbolTable} (h : Alike t u) (struct : String)
    (done : List (String × DataType)) (fields : List Field) :
    u.resolveFields struct done fields = t.resolveFields struct done fields := by
  induction fields generalizing done with
  | nil => rfl
  | cons field fields ih =>
    simp only [SymbolTable.resolveFields, SymbolTable.resolve_congr h.structs, ih]

/-- A struct is registered under a name that is free in both. -/
theorem transfers_declareIfStruct (stmt : Stmt) :
    Transfers (SymbolTable.declareIfStruct stmt) := by
  cases stmt with
  | struct location decl =>
    intro t u h a t' hdeclare
    obtain ⟨fields, hfields, hfree, rfl⟩ := SymbolTable.declareStruct_eq_ok_iff.mp
      (SymbolTable.declareIfStruct_struct_iff.mp hdeclare)
    refine ⟨{ u with structs := (decl.name, fields) :: u.structs }, ?_, ?_⟩
    · rw [← SymbolTable.resolveFields_congr h] at hfields
      rw [← h.isTaken] at hfree
      apply SymbolTable.declareIfStruct_struct_iff.mpr
      exact SymbolTable.declareStruct_eq_ok_iff.mpr ⟨fields, hfields, hfree, rfl⟩
    · exact { h with structs := congrArg ((decl.name, fields) :: ·) h.structs }
  | _ => exact transfers_pure ()

/-- The same functions in front of both make no difference between them. -/
theorem SymbolTable.Alike.withFunctions {t u : SymbolTable} (h : Alike t u)
    (entries : List (String × Signature)) :
    Alike (t.withFunctions entries) (u.withFunctions entries) := by
  refine { h with function? := fun name => ?_ }
  have hname := h.function? name
  simp only [SymbolTable.function?, SymbolTable.withFunctions, List.lookup_append] at hname ⊢
  rw [hname]

/-- A function is registered under a name that is free in both, with the same signature. -/
theorem transfers_declareIfFunction (stmt : Stmt) :
    Transfers (SymbolTable.declareIfFunction stmt) := by
  cases stmt with
  | function location header body =>
    intro t u h a t' hdeclare
    rw [SymbolTable.declareIfFunction] at hdeclare ⊢
    obtain ⟨e, he, hfree, rfl⟩ :=
      SymbolTable.declareFunction_eq_ok_iff.mp (SymbolTable.update_eq_ok_iff.mp hdeclare)
    refine ⟨u.withFunctions [e], ?_, h.withFunctions [e]⟩
    rw [← SymbolTable.entry_congr h.structs h.exportsMemory] at he
    rw [← h.isTaken] at hfree
    apply SymbolTable.update_eq_ok_iff.mpr
    exact SymbolTable.declareFunction_eq_ok_iff.mpr ⟨e, he, hfree, rfl⟩
  | _ => exact transfers_pure ()

/-- What is done to every element of a list goes the same way if each time does. -/
theorem Transfers.forM {α : Type} {f : α → SymbolM Unit} (hf : ∀ a, Transfers (f a))
    (xs : List α) : Transfers (xs.forM f) := by
  induction xs with
  | nil => exact transfers_pure ()
  | cons x xs ih => exact (hf x).bind fun _ => ih

/-- All structs are registered, then all functions. -/
theorem transfers_declare (program : Program) : Transfers (SymbolTable.declare program) :=
  (Transfers.forM transfers_declareIfStruct program.statements).bind fun _ =>
    Transfers.forM transfers_declareIfFunction program.statements

end WasmCompiler
