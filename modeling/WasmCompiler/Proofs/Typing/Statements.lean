import Mathlib.Data.List.Forall2
import WasmCompiler.Proofs.Tree.Parts
import WasmCompiler.Proofs.Typing.Tables

/-!
# Checked statements

What it takes for a statement to be accepted, and what checking it leaves of the symbol table.
`Stmt.scopedExprs` lists the expressions of a statement, each with the table it is checked in: the
scopes that are open there and the variables declared before it.

* `checkStmt_declare_iff` and the rules after it say what checking a statement amounts to, and
  `checkFunction_eq_ok` says it of a function. No other proof opens these definitions to read a
  success.
* `continues_checkStmt` says that only variables of well-formed types come and go.
* `continues_of_mem_scopedExprs` carries this to the table of every expression, whose types are then
  well-formed.
-/

namespace WasmCompiler

open SymbolTable (query define closing inScope)

variable {α : Type} {t t' : SymbolTable}

/-! ### Operations on the table

The steps of checking, each read as a statement about the table before and after. -/

theorem query_eq_ok_iff {f : SymbolTable → Except SemanticError α} {a : α} :
    query f t = .ok a t' ↔ f t = .ok a ∧ t = t' := by
  unfold query
  cases f t with
  | error e => simp
  | ok b => simp

/-- A question that has no answer leaves the table as it is. -/
theorem query_of_error {f : SymbolTable → Except SemanticError α} {e : SemanticError}
    (h : f t = .error e) : query f t = .error e t := by
  simp only [query, h]

/-- What is asked of a table first leaves it as it is. -/
theorem query_bind_eq_ok_iff {β : Type} {f : SymbolTable → Except SemanticError α}
    {rest : α → SymbolM β} {b : β} :
    (query f >>= rest) t = .ok b t' ↔ ∃ a, f t = .ok a ∧ rest a t = .ok b t' := by
  rw [EStateM.bind_eq_ok_iff]
  constructor
  · rintro ⟨a, _, hquery, hrest⟩
    obtain ⟨ha, rfl⟩ := query_eq_ok_iff.mp hquery
    exact ⟨a, ha, hrest⟩
  · rintro ⟨a, ha, hrest⟩
    exact ⟨a, t, query_eq_ok_iff.mpr ⟨ha, rfl⟩, hrest⟩

/-- Defining a name is the operation on the table, as a step. -/
theorem define_eq_ok_iff {name : String} {type : DataType} {role : Role} {location : Location}
    {var : Variable} :
    define name type role location t = .ok var t' ↔
      t.defineVariable name type role location = .ok (var, t') := by
  unfold define
  cases t.defineVariable name type role location with
  | error e => simp
  | ok p => simp [Prod.ext_iff]

/-- A definition that fails leaves the table as it is. -/
theorem define_eq_error_iff {name : String} {type : DataType} {role : Role} {location : Location}
    {e : SemanticError} :
    define name type role location t = .error e t' ↔
      t.defineVariable name type role location = .error e ∧ t = t' := by
  unfold define
  cases t.defineVariable name type role location with
  | error e => simp
  | ok p => simp

/-- A step that succeeds is closed like one that does not. -/
theorem closing_eq_ok_iff {close : SymbolTable → SymbolTable} {action : SymbolM α} {a : α} :
    closing close action t = .ok a t' ↔ ∃ u, action t = .ok a u ∧ t' = close u := by
  unfold closing
  cases action t with
  | error e u => simp
  | ok b u =>
    simp only [EStateM.Result.ok.injEq]
    constructor
    · rintro ⟨rfl, rfl⟩
      exact ⟨u, ⟨rfl, rfl⟩, rfl⟩
    · rintro ⟨v, ⟨rfl, rfl⟩, rfl⟩
      exact ⟨rfl, rfl⟩

/-- A step in a scope of its own runs between opening and closing it. -/
theorem inScope_eq_ok_iff {action : SymbolM α} {a : α} :
    inScope action t = .ok a t' ↔ ∃ u, action t.enterScope = .ok a u ∧ t' = u.exitScope := by
  unfold inScope
  rw [EStateM.bind_eq_ok_iff]
  constructor
  · rintro ⟨_, _, henter, h⟩
    obtain rfl := EStateM.modify_eq_ok_iff.mp henter
    exact closing_eq_ok_iff.mp h
  · intro h
    exact ⟨(), t.enterScope, rfl, closing_eq_ok_iff.mpr h⟩

/-- What follows a scope goes on in the table where the scope is closed again. -/
theorem inScope_bind_eq_ok_iff {β : Type} {action : SymbolM α} {rest : α → SymbolM β} {b : β} :
    (inScope action >>= rest) t = .ok b t' ↔
      ∃ a u, action t.enterScope = .ok a u ∧ rest a u.exitScope = .ok b t' := by
  rw [EStateM.bind_eq_ok_iff]
  constructor
  · rintro ⟨a, _, haction, hrest⟩
    obtain ⟨u, hu, rfl⟩ := inScope_eq_ok_iff.mp haction
    exact ⟨a, u, hu, hrest⟩
  · rintro ⟨a, u, hu, hrest⟩
    exact ⟨a, u.exitScope, inScope_eq_ok_iff.mpr ⟨u, hu, rfl⟩, hrest⟩

/-! ### Declarations

A binding gets its type from the value, or from its annotation where the value has no type. -/

/-- A declared type is that of the value, if it has one, and an array type otherwise. -/
theorem declaredType_eq_ok {b : Binding} {declared : TypeName} {initial : Option DataType}
    {hasValue : Bool} {type : DataType}
    (h : declaredType t b declared initial hasValue = .ok type) :
    t.resolve b.location declared = .ok type ∧ (∀ found ∈ initial, type = found) ∧
      (initial = none → hasValue → type.isArray) := by
  unfold declaredType at h
  obtain ⟨resolved, hresolved, h⟩ := Except.bind_eq_ok_iff.mp h
  -- without a type for the value it can only be an empty array, which needs an array
  cases initial with
  | some found =>
    dsimp only at h
    split at h
    · rename_i heq
      obtain rfl := Except.ok.inj h
      exact ⟨hresolved, by simp [heq], by simp⟩
    · cases h
  | none =>
    dsimp only at h
    split at h
    · cases h
    · rename_i harray
      obtain rfl := Except.ok.inj h
      refine ⟨hresolved, by simp, fun _ hvalue => ?_⟩
      simpa [hvalue] using harray

/-- The type of a binding is that of the value, if the value has one. Otherwise it was declared, and
it is an array type if there is a value. -/
theorem bindingType_eq_ok {initial : Option DataType} {hasValue : Bool} {b : Binding}
    {type : DataType} (h : bindingType t initial hasValue b = .ok type) :
    (∀ found ∈ initial, type = found) ∧
      (initial = none → (∃ declared, t.resolve b.location declared = .ok type) ∧
        (hasValue → type.isArray)) := by
  -- the last check rejects a type without values and changes nothing else
  have hvalue {x : Except SemanticError DataType} {e : DataType → SemanticError}
      (h : (x >>= fun type => if type.isNone then .error (e type) else .ok type) = .ok type) :
      x = .ok type := by
    obtain ⟨found, hfound, h⟩ := Except.bind_eq_ok_iff.mp h
    split at h
    · cases h
    · rwa [Except.ok.inj h] at hfound
  unfold bindingType at h
  cases hdeclared : b.declared with
  | some declared =>
    rw [hdeclared] at h
    obtain ⟨hresolved, hfound, harray⟩ := declaredType_eq_ok (hvalue h)
    exact ⟨hfound, fun hinitial => ⟨⟨declared, hresolved⟩, harray hinitial⟩⟩
  | none =>
    rw [hdeclared] at h
    cases initial with
    | some found => exact ⟨by simp [Except.ok.inj (hvalue h)], by simp⟩
    | none => cases hvalue h

/-- The value of a declaration fits the types of its bindings. -/
theorem initialType_eq_ok {value : Option Expr} {initial : Option DataType}
    (h : initialType t value = .ok initial) :
    (∀ found ∈ initial, ∃ e, value = some e ∧ typeOf t e = .ok found) ∧
      (initial = none → ∀ e ∈ value, e.isEmptyArray) := by
  unfold initialType at h
  split at h
  · obtain rfl := Except.ok.inj h
    exact ⟨by simp, by simp⟩
  · rename_i e
    split at h
    · rename_i hempty
      obtain rfl := Except.ok.inj h
      exact ⟨by simp, fun _ e' he => Option.some.inj he ▸ hempty⟩
    · obtain ⟨found, hfound, rfl⟩ := Except.map_eq_ok_iff.mp h
      exact ⟨fun _ h => ⟨e, rfl, Option.some.inj h ▸ hfound⟩, by simp⟩

/-- The type of a binding is the type of an expression, or an annotation stands for it. -/
theorem SymbolTable.Throughout.ofBinding {P : DataType → Prop} (h : t.Throughout P)
    (hP : DataType.Builtin P) {value : Option Expr} {initial : Option DataType} {b : Binding}
    {type : DataType} (hinitial : initialType t value = .ok initial)
    (htype : bindingType t initial value.isSome b = .ok type) : type.Throughout P := by
  obtain ⟨hfound, hdeclared⟩ := bindingType_eq_ok htype
  cases initial with
  | some found =>
    obtain ⟨e, -, he⟩ := (initialType_eq_ok hinitial).1 found rfl
    rw [hfound found rfl]
    exact h.typeOf hP e he
  | none =>
    obtain ⟨⟨declared, hresolved⟩, -⟩ := hdeclared rfl
    exact h.resolve hP declared hresolved

/-- Going through a list succeeds if every element does, and gives the list of their results. -/
theorem mapM_eq_ok {β ε : Type} {f : α → Except ε β} {xs : List α} {ys : List β}
    (h : xs.mapM f = .ok ys) : List.Forall₂ (fun x y => f x = .ok y) xs ys := by
  induction xs generalizing ys with
  | nil =>
    obtain rfl := Except.ok.inj h
    exact .nil
  | cons x xs ih =>
    rw [List.mapM_cons] at h
    obtain ⟨y, hy, h⟩ := Except.bind_eq_ok_iff.mp h
    obtain ⟨ys', hys, h⟩ := Except.bind_eq_ok_iff.mp h
    obtain rfl := Except.ok.inj h
    exact .cons hy (ih hys)

/-- What a relation says of its right sides holds of all elements of the second list. -/
theorem forall_mem_of_forall₂ {β : Type} {R : α → β → Prop} {P : β → Prop} {xs : List α}
    {ys : List β} (h : List.Forall₂ R xs ys) (hR : ∀ x y, R x y → P y) : ∀ y ∈ ys, P y := by
  induction h with
  | nil => simp
  | cons hxy _ ih => exact List.forall_mem_cons.mpr ⟨hR _ _ hxy, ih⟩

/-- The first name is defined before the others, and its binding is filled in. -/
theorem defineBindings_cons_iff {b : Binding} {type : DataType} {pairs : List (Binding × DataType)}
    {bindings : List Binding} :
    defineBindings ((b, type) :: pairs) t = .ok bindings t' ↔
      ∃ var u, t.defineVariable b.name type .declaration b.location = .ok (var, u) ∧
        ∃ others, defineBindings pairs u = .ok others t' ∧
          { b with resolved := some type } :: others = bindings := by
  rw [defineBindings, EStateM.bind_eq_ok_iff]
  simp only [define_eq_ok_iff, bind_pure_comp, EStateM.map_eq_ok_iff]

/-- A checked declaration: the value has its type before the names exist, and every name gets a
type that the value fits. -/
theorem checkDeclaration_eq_ok {bindings bindings' : List Binding} {value : Option Expr}
    (h : checkDeclaration bindings value t = .ok bindings' t') :
    ∃ initial types, initialType t value = .ok initial ∧
      List.Forall₂ (fun b type => bindingType t initial value.isSome b = .ok type) bindings types ∧
      defineBindings (bindings.zip types) t = .ok bindings' t' := by
  unfold checkDeclaration at h
  obtain ⟨initial, hinitial, h⟩ := query_bind_eq_ok_iff.mp h
  obtain ⟨types, htypes, h⟩ := query_bind_eq_ok_iff.mp h
  exact ⟨initial, types, hinitial, mapM_eq_ok htypes, h⟩

/-! ### Statements

One rule for each form, as for the types of expressions. Functions and structures have none: inside
a body they are never accepted. -/

section Rules

attribute [local simp] checkStmt

variable {result : DataType} {location : Location} {condition value : Expr} {body : List Stmt}
  {stmt' : Stmt}

/-- A declaration is accepted if its bindings are, and it carries them then with their types filled
in. -/
theorem checkStmt_declare_iff {isMutable : Bool} {bindings : List Binding} {value : Option Expr} :
    checkStmt result (.declare location isMutable bindings value) t = .ok stmt' t' ↔
      ∃ bindings', checkDeclaration bindings value t = .ok bindings' t' ∧
        .declare location isMutable bindings' value = stmt' := by
  rw [checkStmt, bind_pure_comp, EStateM.map_eq_ok_iff]

/-- A return is checked against the result of the function. -/
theorem checkStmt_ret_iff {value : Option Expr} :
    checkStmt result (.ret location value) t = .ok stmt' t' ↔
      checkReturn t result location value = .ok () ∧ .ret location value = stmt' ∧ t = t' := by
  rw [checkStmt, query_bind_eq_ok_iff, Unique.exists_iff, EStateM.pure_eq_ok_iff]

theorem checkStmt_assign_iff {target : Expr} :
    checkStmt result (.assign location target value) t = .ok stmt' t' ↔
      checkAssignment t target value = .ok () ∧ .assign location target value = stmt' ∧ t = t' := by
  rw [checkStmt, query_bind_eq_ok_iff, Unique.exists_iff, EStateM.pure_eq_ok_iff]

/-- The condition is checked outside of the body. -/
theorem checkStmt_conditional_none_iff :
    checkStmt result (.conditional location condition body none) t = .ok stmt' t' ↔
      checkCondition t condition = .ok () ∧
        ∃ body' u, checkStmts result body t.enterScope = .ok body' u ∧
          .conditional location condition body' none = stmt' ∧ u.exitScope = t' := by
  rw [checkStmt, query_bind_eq_ok_iff, Unique.exists_iff, inScope_bind_eq_ok_iff]
  simp only [EStateM.pure_eq_ok_iff]

/-- The alternate is checked in the table that the body leaves. -/
theorem checkStmt_conditional_some_iff {alternate : Stmt} :
    checkStmt result (.conditional location condition body (some alternate)) t = .ok stmt' t' ↔
      checkCondition t condition = .ok () ∧
        ∃ body' u, checkStmts result body t.enterScope = .ok body' u ∧
          ∃ alternate', checkStmt result alternate u.exitScope = .ok alternate' t' ∧
            .conditional location condition body' (some alternate') = stmt' := by
  rw [checkStmt, query_bind_eq_ok_iff, Unique.exists_iff, inScope_bind_eq_ok_iff]
  simp only [bind_pure_comp, EStateM.map_eq_ok_iff]

/-- A loop is checked like a conditional; its body is gone through once. -/
theorem checkStmt_whileLoop_iff :
    checkStmt result (.whileLoop location condition body) t = .ok stmt' t' ↔
      checkCondition t condition = .ok () ∧
        ∃ body' u, checkStmts result body t.enterScope = .ok body' u ∧
          .whileLoop location condition body' = stmt' ∧ u.exitScope = t' := by
  rw [checkStmt, query_bind_eq_ok_iff, Unique.exists_iff, inScope_bind_eq_ok_iff]
  simp only [EStateM.pure_eq_ok_iff]

theorem checkStmt_print_iff :
    checkStmt result (.print location value) t = .ok stmt' t' ↔
      checkPrint t value = .ok () ∧ .print location value = stmt' ∧ t = t' := by
  rw [checkStmt, query_bind_eq_ok_iff, Unique.exists_iff, EStateM.pure_eq_ok_iff]

/-- The value of an expression statement may have any type that there is. -/
theorem checkStmt_expression_iff :
    checkStmt result (.expression location value) t = .ok stmt' t' ↔
      (∃ type, typeOf t value = .ok type) ∧ .expression location value = stmt' ∧ t = t' := by
  simp [-bind_pure_comp, query_bind_eq_ok_iff, EStateM.pure_eq_ok_iff]

/-- A block is nothing but a scope. -/
theorem checkStmt_block_iff :
    checkStmt result (.block location body) t = .ok stmt' t' ↔
      ∃ body' u, checkStmts result body t.enterScope = .ok body' u ∧
        .block location body' = stmt' ∧ u.exitScope = t' := by
  rw [checkStmt, inScope_bind_eq_ok_iff]
  simp only [EStateM.pure_eq_ok_iff]

/-- A statement sees the variables that the ones before it declare. -/
theorem checkStmts_cons_iff {stmt : Stmt} {stmts stmts' : List Stmt} :
    checkStmts result (stmt :: stmts) t = .ok stmts' t' ↔
      ∃ stmt' u, checkStmt result stmt t = .ok stmt' u ∧
        ∃ rest', checkStmts result stmts u = .ok rest' t' ∧ stmt' :: rest' = stmts' := by
  rw [checkStmts, EStateM.bind_eq_ok_iff]
  simp only [bind_pure_comp, EStateM.map_eq_ok_iff]

/-- The statements that declare nothing and hold no other statement. -/
def Stmt.isFlat : Stmt → Bool
  | .ret .. | .assign .. | .print .. | .expression .. => true
  | _ => false

/-- A flat statement comes out of the check unchanged, and so does the table. -/
theorem checkStmt_of_isFlat {stmt : Stmt} (hflat : stmt.isFlat)
    (h : checkStmt result stmt t = .ok stmt' t') : stmt = stmt' ∧ t = t' := by
  match stmt, hflat with
  | .ret .., _ => exact (checkStmt_ret_iff.mp h).2
  | .assign .., _ => exact (checkStmt_assign_iff.mp h).2
  | .print .., _ => exact (checkStmt_print_iff.mp h).2
  | .expression .., _ => exact (checkStmt_expression_iff.mp h).2

/-- What checking a function amounts to. -/
theorem checkFunction_eq_ok {header : FunctionHeader} {body' : List Stmt}
    (h : checkFunction location header body t = .ok body' t') :
    ∃ signature params last, t.function? header.name = some signature ∧
      checkParams (header.params.zip signature.params) t.enterFunction = .ok () params ∧
      checkStmts signature.result body params = .ok body' last ∧ t' = last.exitFunction := by
  unfold checkFunction at h
  obtain ⟨signature, hsignature, h⟩ := query_bind_eq_ok_iff.mp h
  obtain ⟨_, _, henter, h⟩ := EStateM.bind_eq_ok_iff.mp h
  obtain rfl := EStateM.modify_eq_ok_iff.mp henter
  obtain ⟨_, params, hparams, h⟩ := EStateM.bind_eq_ok_iff.mp h
  obtain ⟨last, hbody, rfl⟩ := closing_eq_ok_iff.mp h
  refine ⟨signature, params, last, ?_, hparams, hbody, rfl⟩
  split at hsignature
  · rename_i found hfound
    obtain rfl := Except.ok.inj hsignature
    exact hfound
  · cases hsignature

/-- A function keeps its header and gets the statements that checking gives. -/
theorem checkTopLevel_function_iff {header : FunctionHeader} :
    checkTopLevel (.function location header body) t = .ok stmt' t' ↔
      ∃ body', checkFunction location header body t = .ok body' t' ∧
        .function location header body' = stmt' := by
  rw [checkTopLevel, bind_pure_comp, EStateM.map_eq_ok_iff]

theorem checkTopLevel_struct_iff {decl : StructDecl} :
    checkTopLevel (.struct location decl) t = .ok stmt' t' ↔
      .struct location decl = stmt' ∧ t = t' :=
  EStateM.pure_eq_ok_iff

end Rules

/-! ### What checking keeps

Lowering starts from the same functions, structs and strings as checking, so they may not change on
the way. -/

namespace SymbolTable

/-- The types of the variables of the table are well-formed, and the rest is as in another. -/
structure Continues (g t : SymbolTable) : Prop where
  wellFormed : t.WellFormed
  globals : g.SameGlobals t

variable {g : SymbolTable}

theorem Continues.enterScope (h : g.Continues t) : g.Continues t.enterScope :=
  ⟨h.wellFormed.enterScope, h.globals.trans ⟨rfl, rfl, rfl, rfl⟩⟩

theorem Continues.exitScope (h : g.Continues t) : g.Continues t.exitScope :=
  ⟨h.wellFormed.exitScope, h.globals.trans ⟨rfl, rfl, rfl, rfl⟩⟩

/-- A variable of a well-formed type may be defined. -/
theorem Continues.withVariable (h : g.Continues t) {var : Variable}
    (hvar : var.type.WellFormed) : g.Continues (t.withVariable var) :=
  ⟨h.wellFormed.withVariable hvar, h.globals.trans ⟨rfl, rfl, rfl, rfl⟩⟩

end SymbolTable

/-- The types of the bindings are well-formed before any of them is defined. -/
theorem continues_defineBindings {g : SymbolTable} {pairs : List (Binding × DataType)}
    {bindings : List Binding} (h : defineBindings pairs t = .ok bindings t')
    (hpairs : ∀ p ∈ pairs, p.2.WellFormed) (ht : g.Continues t) : g.Continues t' := by
  induction pairs generalizing t bindings with
  | nil =>
    obtain ⟨-, rfl⟩ := EStateM.pure_eq_ok_iff.mp h
    exact ht
  | cons pair pairs ih =>
    obtain ⟨b, type⟩ := pair
    rw [List.forall_mem_cons] at hpairs
    obtain ⟨var, u, hdefine, others, hothers, -⟩ := defineBindings_cons_iff.mp h
    obtain ⟨-, -, rfl, rfl⟩ := SymbolTable.defineVariable_eq_ok_iff.mp hdefine
    exact ih hothers hpairs.2 (ht.withVariable hpairs.1)

/-- A declaration defines variables of well-formed types: each is the type of its value or comes
from an annotation. -/
theorem continues_checkDeclaration {g : SymbolTable} {bindings bindings' : List Binding}
    {value : Option Expr} (h : checkDeclaration bindings value t = .ok bindings' t')
    (ht : g.Continues t) : g.Continues t' := by
  obtain ⟨initial, types, hinitial, htypes, hdefine⟩ := checkDeclaration_eq_ok h
  refine continues_defineBindings hdefine (fun pair hpair => ?_) ht
  obtain ⟨b, type⟩ := pair
  have htype : bindingType t initial value.isSome b = .ok type :=
    List.forall₂_iff_zip.mp htypes |>.2 hpair
  exact (SymbolTable.wellFormed_iff_throughout.mp ht.wellFormed).ofBinding
    DataType.builtin_cellsFit hinitial htype

mutual

/-- Checking a statement keeps the table well-formed and changes its variables only. -/
theorem continues_checkStmt {g : SymbolTable} {result : DataType} :
    (s : Stmt) → {s' : Stmt} → {t t' : SymbolTable} → checkStmt result s t = .ok s' t' →
      g.Continues t → g.Continues t'
  | .declare .., _, _, _, h, ht => by
    obtain ⟨bindings, hbindings, -⟩ := checkStmt_declare_iff.mp h
    exact continues_checkDeclaration hbindings ht
  | .function .., _, _, _, h, _ | .struct .., _, _, _, h, _ => by
    rw [checkStmt] at h
    cases h
  | .ret .., _, _, _, h, ht | .assign .., _, _, _, h, ht
  | .print .., _, _, _, h, ht | .expression .., _, _, _, h, ht => by
    obtain ⟨-, rfl⟩ := checkStmt_of_isFlat rfl h
    exact ht
  | .conditional _ _ body none, _, _, _, h, ht => by
    obtain ⟨-, body', u, hbody, -, rfl⟩ := checkStmt_conditional_none_iff.mp h
    exact (continues_checkStmts body hbody ht.enterScope).exitScope
  | .conditional _ _ body (some alternate), _, _, _, h, ht => by
    obtain ⟨-, body', u, hbody, alternate', halternate, -⟩ := checkStmt_conditional_some_iff.mp h
    -- the alternate begins where the scope of the body was left
    have hu := (continues_checkStmts body hbody ht.enterScope).exitScope
    exact continues_checkStmt alternate halternate hu
  | .whileLoop _ _ body, _, _, _, h, ht => by
    obtain ⟨-, body', u, hbody, -, rfl⟩ := checkStmt_whileLoop_iff.mp h
    exact (continues_checkStmts body hbody ht.enterScope).exitScope
  | .block _ body, _, _, _, h, ht => by
    obtain ⟨body', u, hbody, -, rfl⟩ := checkStmt_block_iff.mp h
    exact (continues_checkStmts body hbody ht.enterScope).exitScope

theorem continues_checkStmts {g : SymbolTable} {result : DataType} :
    (ss : List Stmt) → {ss' : List Stmt} → {t t' : SymbolTable} →
      checkStmts result ss t = .ok ss' t' → g.Continues t → g.Continues t'
  | [], _, _, _, h, ht => by
    obtain ⟨-, rfl⟩ := EStateM.pure_eq_ok_iff.mp h
    exact ht
  | s :: ss, _, _, _, h, ht => by
    obtain ⟨s', u, hs, ss', hss, -⟩ := checkStmts_cons_iff.mp h
    exact continues_checkStmts ss hss (continues_checkStmt s hs ht)

end

/-! ### Expressions in their scopes

The table of an expression is not written in the tree. It is found by checking everything before it
once more. -/

/-- The table that an operation leaves. -/
def tableAfter : EStateM.Result SemanticError SymbolTable α → SymbolTable
  | .ok _ t => t
  | .error _ t => t

/-- After a scope that was gone through, the table is what is left when it is closed. -/
theorem tableAfter_inScope {action : SymbolM α} {a : α} {u : SymbolTable}
    (h : action t.enterScope = .ok a u) : tableAfter (inScope action t) = u.exitScope := by
  rw [inScope_eq_ok_iff.mpr ⟨u, h, rfl⟩]
  rfl

mutual

/-- The expressions of a statement, each with the table it is checked in. -/
def Stmt.scopedExprs (result : DataType) : Stmt → SymbolTable → List (SymbolTable × Expr)
  | .declare _ _ _ value, t | .ret _ value, t => value.toList.map (t, ·)
  | .assign _ target value, t => [(t, target), (t, value)]
  | .conditional _ condition body none, t =>
    (t, condition) :: Stmt.scopedExprsAll result body t.enterScope
  | .conditional _ condition body (some alternate), t =>
    (t, condition) :: Stmt.scopedExprsAll result body t.enterScope ++
      alternate.scopedExprs result (tableAfter (inScope (checkStmts result body) t))
  | .whileLoop _ condition body, t => (t, condition) :: Stmt.scopedExprsAll result body t.enterScope
  | .print _ value, t | .expression _ value, t => [(t, value)]
  | .block _ body, t => Stmt.scopedExprsAll result body t.enterScope
  | .function .., _ | .struct .., _ => []

/-- The expressions of statements, each with the table it is checked in. -/
def Stmt.scopedExprsAll (result : DataType) : List Stmt → SymbolTable → List (SymbolTable × Expr)
  | [], _ => []
  | s :: ss, t =>
    s.scopedExprs result t ++ Stmt.scopedExprsAll result ss (tableAfter (checkStmt result s t))

end

/-- The expressions of a top-level statement, each with the table it is checked in. -/
def Stmt.scopedExprsTopLevel (t : SymbolTable) : Stmt → List (SymbolTable × Expr)
  | .function _ header body =>
    match t.function? header.name with
    | some signature =>
      Stmt.scopedExprsAll signature.result body
        (tableAfter (checkParams (header.params.zip signature.params) t.enterFunction))
    | none => []
  | _ => []

/-- The expressions of a program whose declarations are in a table, each with the table it is
checked in. -/
def Program.scopedExprs (t : SymbolTable) (program : Program) : List (SymbolTable × Expr) :=
  program.statements.flatMap (Stmt.scopedExprsTopLevel t)

mutual

/-- The expressions with their tables are expressions of the statement; a nested function has
none. -/
theorem Stmt.mem_exprs_of_mem_scopedExprs {result : DataType} {p : SymbolTable × Expr} :
    (s : Stmt) → {t : SymbolTable} → p ∈ s.scopedExprs result t → p.2 ∈ s.exprs
  | .declare _ _ _ value, t, h | .ret _ value, t, h => by
    obtain ⟨e, he, rfl⟩ := List.mem_map.mp h
    exact he
  | .assign .., t, h => by
    simp only [Stmt.scopedExprs, List.mem_cons, List.not_mem_nil, or_false] at h
    rcases h with rfl | rfl <;> simp [Stmt.exprs]
  | .conditional _ _ body none, t, h | .whileLoop _ _ body, t, h => by
    simp only [Stmt.scopedExprs, List.mem_cons] at h
    rcases h with rfl | h
    · simp [Stmt.exprs]
    · simp [Stmt.exprs, Stmt.mem_exprsAll_of_mem_scopedExprsAll body h]
  | .conditional _ _ body (some alternate), t, h => by
    simp only [Stmt.scopedExprs, List.cons_append, List.mem_cons, List.mem_append] at h
    rcases h with rfl | h | h
    · simp [Stmt.exprs]
    · simp [Stmt.exprs, Stmt.mem_exprsAll_of_mem_scopedExprsAll body h]
    · simp [Stmt.exprs, Stmt.mem_exprs_of_mem_scopedExprs alternate h]
  | .print .., t, h | .expression .., t, h => by
    obtain rfl := List.mem_singleton.mp h
    simp [Stmt.exprs]
  | .block _ body, t, h => Stmt.mem_exprsAll_of_mem_scopedExprsAll body h
  | .function .., _, h | .struct .., _, h => by cases h

theorem Stmt.mem_exprsAll_of_mem_scopedExprsAll {result : DataType} {p : SymbolTable × Expr} :
    (ss : List Stmt) → {t : SymbolTable} → p ∈ Stmt.scopedExprsAll result ss t →
      p.2 ∈ Stmt.exprsAll ss
  | [], _, h => by cases h
  | s :: ss, t, h => by
    simp only [Stmt.scopedExprsAll, List.mem_append, Stmt.exprsAll] at h ⊢
    exact h.imp (Stmt.mem_exprs_of_mem_scopedExprs s) (Stmt.mem_exprsAll_of_mem_scopedExprsAll ss)

end

mutual

/-- Every expression of a checked statement is checked in a table with the same globals. -/
theorem continues_of_mem_scopedExprs {g : SymbolTable} {result : DataType}
    {p : SymbolTable × Expr} : (s : Stmt) → {s' : Stmt} → {t t' : SymbolTable} →
      checkStmt result s t = .ok s' t' → g.Continues t → p ∈ s.scopedExprs result t →
      g.Continues p.1
  | .declare _ _ _ value, _, _, _, _, ht, hp | .ret _ value, _, _, _, _, ht, hp => by
    obtain ⟨e, -, rfl⟩ := List.mem_map.mp hp
    exact ht
  | .assign .., _, _, _, _, ht, hp => by
    simp only [Stmt.scopedExprs, List.mem_cons, List.not_mem_nil, or_false] at hp
    rcases hp with rfl | rfl <;> exact ht
  | .print .., _, _, _, _, ht, hp | .expression .., _, _, _, _, ht, hp => by
    obtain rfl := List.mem_singleton.mp hp
    exact ht
  | .function .., _, _, _, _, _, hp | .struct .., _, _, _, _, _, hp => by cases hp
  | .conditional _ _ body none, _, _, _, h, ht, hp => by
    obtain ⟨-, body', u, hbody, -⟩ := checkStmt_conditional_none_iff.mp h
    rw [Stmt.scopedExprs, List.mem_cons] at hp
    rcases hp with rfl | hp
    · exact ht
    · exact continues_of_mem_scopedExprsAll body hbody ht.enterScope hp
  | .whileLoop _ _ body, _, _, _, h, ht, hp => by
    obtain ⟨-, body', u, hbody, -⟩ := checkStmt_whileLoop_iff.mp h
    rw [Stmt.scopedExprs, List.mem_cons] at hp
    rcases hp with rfl | hp
    · exact ht
    · exact continues_of_mem_scopedExprsAll body hbody ht.enterScope hp
  | .conditional _ _ body (some alternate), _, _, _, h, ht, hp => by
    obtain ⟨-, body', u, hbody, alternate', halternate, -⟩ := checkStmt_conditional_some_iff.mp h
    rw [Stmt.scopedExprs, List.cons_append, List.mem_cons, List.mem_append,
      tableAfter_inScope hbody] at hp
    rcases hp with rfl | hp | hp
    · exact ht
    · exact continues_of_mem_scopedExprsAll body hbody ht.enterScope hp
    · have hu := (continues_checkStmts body hbody ht.enterScope).exitScope
      exact continues_of_mem_scopedExprs alternate halternate hu hp
  | .block _ body, _, _, _, h, ht, hp => by
    obtain ⟨body', u, hbody, -⟩ := checkStmt_block_iff.mp h
    exact continues_of_mem_scopedExprsAll body hbody ht.enterScope hp

theorem continues_of_mem_scopedExprsAll {g : SymbolTable} {result : DataType}
    {p : SymbolTable × Expr} : (ss : List Stmt) → {ss' : List Stmt} → {t t' : SymbolTable} →
      checkStmts result ss t = .ok ss' t' → g.Continues t →
      p ∈ Stmt.scopedExprsAll result ss t → g.Continues p.1
  | [], _, _, _, _, _, hp => by cases hp
  | s :: ss, _, _, _, h, ht, hp => by
    obtain ⟨s', u, hs, ss', hss, -⟩ := checkStmts_cons_iff.mp h
    rw [Stmt.scopedExprsAll, List.mem_append, hs, tableAfter] at hp
    rcases hp with hp | hp
    · exact continues_of_mem_scopedExprs s hs ht hp
    · exact continues_of_mem_scopedExprsAll ss hss (continues_checkStmt s hs ht) hp

end

/-- So whatever holds of all expressions of a program can be used of these. -/
theorem Program.mem_exprs_of_mem_scopedExprs {program : Program} {p : SymbolTable × Expr}
    (h : p ∈ program.scopedExprs t) : p.2 ∈ program.exprs := by
  obtain ⟨s, hs, h⟩ := List.mem_flatMap.mp h
  have hexprs : p.2 ∈ s.exprs := by
    unfold Stmt.scopedExprsTopLevel at h
    split at h
    · split at h
      · exact Stmt.mem_exprsAll_of_mem_scopedExprsAll _ h
      · cases h
    · cases h
  exact Stmt.forall_mem_exprsAll_iff.mp (fun _ he => he) s hs _ hexprs

end WasmCompiler
