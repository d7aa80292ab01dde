import WasmCompiler.Proofs.Symbols.Fields
import WasmCompiler.Proofs.Symbols.Registration
import WasmCompiler.Proofs.Typing.Scopes

/-!
# What is stored takes one cell

Memory is laid out in cells, so an array element and a struct field must be one machine value each,
and a struct type must have the fields that its name is registered with. No single place ensures
this: annotations, struct declarations and array literals are checked each on their own. Here it is
shown of every type that comes up while a program is declared and checked (`Arises`), at every depth
inside the type.

What holds throughout the types of a table holds of the types that are found with it
(`SymbolTable.Throughout`), so it is enough to follow the tables. Declaring goes through tables that
only gain entries (`SymbolTable.Declares`). Checking goes through tables that differ in their
variables (`Stmt.Visits`, `Stmt.VisitsTopLevel`), also on the way out of an error.

`throughout_of_arises` is the result. What carries it are `SymbolTable.inCells_declareStructs` for
the first pass over a program, where the property itself grows with the table, and
`Stmt.VisitsTopLevel.throughout` for the rest, where it stands still.
-/

namespace WasmCompiler

open SymbolTable (define closing inScope)

variable {t t' u v g : SymbolTable}

/-! ### Types of a registry

The property depends on a table, since a struct type has to be the one that is registered. -/

/-- Array elements and struct fields are one machine value each. A struct has the fields that a
table knows for its name, and they have names of their own. -/
def DataType.InCells (g : SymbolTable) : DataType → Prop
  | .array element => element.machineTypes.length = 1
  | .struct name fields => (∀ field ∈ fields, field.2.machineTypes.length = 1) ∧
      (fields.map (·.1)).Nodup ∧ g.struct? name = some fields
  | _ => True

/-- An annotation of an array is refused if its elements do not fit a cell. -/
theorem DataType.builtin_inCells (g : SymbolTable) : Builtin (InCells g) :=
  ⟨fun _ => trivial, fun _ hfits => fitsCell_iff.mp hfits, fun _ => trivial⟩

/-- Structs that stay registered keep their types in cells. -/
theorem DataType.InCells.mono
    (hkept : ∀ name fields, t.struct? name = some fields → t'.struct? name = some fields)
    {s : DataType} (h : s.InCells t) : s.InCells t' := by
  match s, h with
  | .primitive _, _ => trivial
  | .tuple _, _ => trivial
  | .array _, h => exact h
  | .struct name fields, ⟨hcells, hnames, hstruct⟩ =>
    exact ⟨hcells, hnames, hkept name fields hstruct⟩

/-! ### Declarations

Structs are declared one by one, and each is made of types of the table before it. -/

namespace SymbolTable

open DataType (InCells builtin_inCells)

/-- A struct that is declared has fields of types that were there before. -/
theorem inCells_declareStruct {decl : StructDecl} {location : Location}
    (h : t.declareStruct decl location = .ok t') (ht : t.Throughout (InCells t)) :
    t'.Throughout (InCells t') := by
  obtain ⟨fields, hfields, htable, hstruct, hkept⟩ := declareStruct_registers h
  obtain ⟨hsound, -, hresolved⟩ := resolveFields_sound hfields soundFields_nil
  have hbefore : t.Throughout (InCells t') := ht.mono fun _ => DataType.InCells.mono hkept
  have hself : (DataType.struct decl.name fields).InCells t' :=
    ⟨fun f hf => DataType.fitsCell_iff.mp (hsound.cells f hf), hsound.names, hstruct⟩
  have hnew : (DataType.struct decl.name fields).Throughout (InCells t') := by
    refine DataType.throughout_struct_iff.mpr ⟨hself, fun field hfield => ?_⟩
    obtain ⟨f, -, hresolve⟩ := (hresolved field hfield).resolve_left (by simp)
    exact hbefore.resolve (builtin_inCells t') f.type hresolve
  have hscopes : t'.scopes = t.scopes := by rw [htable]
  have hfunctions : t'.functions = t.functions := by rw [htable]
  have hstructs : t'.structs = (decl.name, fields) :: t.structs := by rw [htable]
  refine ⟨hscopes ▸ hbefore.visible, hfunctions ▸ hbefore.functions, ?_⟩
  rw [hstructs]
  exact List.forall_mem_cons.mpr ⟨hnew, hbefore.structs⟩

/-- The first pass keeps what one declaration keeps. -/
theorem inCells_declareStructs {stmts : List Stmt} {a : Unit}
    (h : stmts.forM declareIfStruct t = .ok a t') (ht : t.Throughout (InCells t)) :
    t'.Throughout (InCells t') := by
  exact keeps_declareStructs (P := fun t => t.Throughout (InCells t)) inCells_declareStruct h ht

/-- The signatures of functions are made of annotations. -/
theorem Throughout.declareFunctions {P : DataType → Prop} (ht : t.Throughout P)
    (hP : DataType.Builtin P) {stmts : List Stmt}
    (h : stmts.forM declareIfFunction t = .ok () t') : t'.Throughout P := by
  obtain ⟨entries, hentries, -, -, rfl⟩ := declareFunctions_iff.mp h
  have hnew : ∀ e ∈ entries, (∀ param ∈ e.2.params, param.Throughout P) ∧
      e.2.result.Throughout P := by
    refine forall_mem_of_forall₂ (mapM_eq_ok hentries) fun f e hentry => ?_
    obtain ⟨signature, hsignature, hentry⟩ := Except.bind_eq_ok_iff.mp hentry
    split at hentry
    · cases hentry
    · obtain rfl := Except.ok.inj hentry
      exact ht.resolveSignature hP hsignature
  refine ⟨ht.visible, ?_, ht.structs⟩
  show ∀ f ∈ entries.reverse ++ t.functions, _
  rw [List.forall_mem_append]
  exact ⟨fun e he => hnew e (List.mem_reverse.mp he), ht.functions⟩

/-- The tables that declaring a program goes through. -/
inductive Declares (program : Program) (t : SymbolTable) : SymbolTable → Prop
  | structs {before after v} (hsplit : program.statements = before ++ after)
    (hbefore : before.forM declareIfStruct t = .ok () v) : Declares program t v
  | functions {before after u v} (hstructs : program.statements.forM declareIfStruct t = .ok () u)
    (hsplit : program.statements = before ++ after)
    (hbefore : before.forM declareIfFunction u = .ok () v) : Declares program t v

/-- The types in such a table are in cells when all structs are known. -/
theorem Declares.inCells {program : Program} (h : Declares program t v)
    (ht : t.Throughout (InCells t)) (hdeclare : declare program t = .ok () g) :
    v.Throughout (InCells g) := by
  obtain ⟨_, t₁, hstructs, hfunctions⟩ := EStateM.bind_eq_ok_iff.mp hdeclare
  have hsame : g.structs = t₁.structs := structs_of_declareFunctions hfunctions
  cases h with
  | @structs before after v hsplit hbefore =>
    -- what the remaining structs add, they add to entries that stay
    have hlater : ∃ a w, before.forM declareIfStruct t = .ok a w ∧
        after.forM declareIfStruct w = .ok () t₁ := by
      rw [hsplit, List.forM_eq_forM, List.forM_append] at hstructs
      exact EStateM.bind_eq_ok_iff.mp hstructs
    obtain ⟨_, w, hw, hafter⟩ := hlater
    obtain ⟨-, rfl⟩ := EStateM.Result.ok.inj (hbefore.symm.trans hw)
    have hkept := (declareStructs_registers hafter).1
    refine (inCells_declareStructs hbefore ht).mono fun _ => DataType.InCells.mono ?_
    intro name fields hfields
    rw [struct?, hsame]
    exact hkept name fields hfields
  | @functions before after u v hstructs' hsplit hbefore =>
    obtain ⟨-, rfl⟩ := EStateM.Result.ok.inj (hstructs'.symm.trans hstructs)
    have hall : u.Throughout (InCells g) := by
      refine (inCells_declareStructs hstructs ht).mono fun _ => DataType.InCells.mono ?_
      intro name fields hfields
      rw [struct?, hsame]
      exact hfields
    exact hall.declareFunctions (builtin_inCells g) hbefore

end SymbolTable

/-! ### Tables while checking

A table is visited also if checking fails right after it. -/

/-- The tables that checking statements goes through: those before and after every statement, those
in the scopes of blocks, and those between the names of a declaration. -/
inductive Stmt.Visits (result : DataType) : List Stmt → SymbolTable → SymbolTable → Prop
  | here {stmts t} : Visits result stmts t t
  | leave {stmt stmts t} : Visits result (stmt :: stmts) t (tableAfter (checkStmt result stmt t))
  | next {stmt stmt' stmts t u v} (hstmt : checkStmt result stmt t = .ok stmt' u)
    (hrest : Visits result stmts u v) : Visits result (stmt :: stmts) t v
  | defined {location isMutable bindings value stmts t initial types before after done v}
    (hinitial : initialType t value = .ok initial)
    (htypes : bindings.mapM (bindingType t initial value.isSome) = .ok types)
    (hsplit : bindings.zip types = before ++ after)
    (hbefore : defineBindings before t = .ok done v) :
    Visits result (.declare location isMutable bindings value :: stmts) t v
  | conditional {location condition body alternate stmts t v}
    (hcondition : checkCondition t condition = .ok ()) (hbody : Visits result body t.enterScope v) :
    Visits result (.conditional location condition body alternate :: stmts) t v
  | alternate {location condition body body' alternate stmts t u v}
    (hcondition : checkCondition t condition = .ok ())
    (hbody : inScope (checkStmts result body) t = .ok body' u)
    (halternate : Visits result [alternate] u v) :
    Visits result (.conditional location condition body (some alternate) :: stmts) t v
  | whileLoop {location condition body stmts t v}
    (hcondition : checkCondition t condition = .ok ()) (hbody : Visits result body t.enterScope v) :
    Visits result (.whileLoop location condition body :: stmts) t v
  | block {location body stmts t v} (hbody : Visits result body t.enterScope v) :
    Visits result (.block location body :: stmts) t v

/-- The tables that checking statements outside of functions goes through: those before and after
every statement, those between the parameters of a function, and those in its body. -/
inductive Stmt.VisitsTopLevel : List Stmt → SymbolTable → SymbolTable → Prop
  | here {stmts t} : VisitsTopLevel stmts t t
  | leave {stmt stmts t} : VisitsTopLevel (stmt :: stmts) t (tableAfter (checkTopLevel stmt t))
  | next {stmt stmt' stmts t u v} (hstmt : checkTopLevel stmt t = .ok stmt' u)
    (hrest : VisitsTopLevel stmts u v) : VisitsTopLevel (stmt :: stmts) t v
  | params {location header body stmts t signature before after v}
    (hsignature : t.function? header.name = some signature)
    (hsplit : header.params.zip signature.params = before ++ after)
    (hbefore : checkParams before t.enterFunction = .ok () v) :
    VisitsTopLevel (.function location header body :: stmts) t v
  | body {location header body stmts t signature u v}
    (hsignature : t.function? header.name = some signature)
    (hparams : checkParams (header.params.zip signature.params) t.enterFunction = .ok () u)
    (hbody : Visits signature.result body u v) :
    VisitsTopLevel (.function location header body :: stmts) t v

/-- The tables that checking a program goes through. -/
def Program.Visits (program : Program) (t v : SymbolTable) : Prop :=
  Stmt.VisitsTopLevel program.statements t v

section Keeps

variable {P : DataType → Prop} {α : Type}

/-- What holds throughout the types of one table holds throughout those of another. -/
def Keeps (P : DataType → Prop) (t t' : SymbolTable) : Prop :=
  t.Throughout P → t'.Throughout P

instance : Std.Refl (Keeps P) :=
  ⟨fun _ h => h⟩

instance : Trans (Keeps P) (Keeps P) (Keeps P) :=
  ⟨fun h h' ht => h' (h ht)⟩

/-- An operation that succeeds leads to the table that it gives. -/
theorem Leads.of_ok {R : SymbolTable → SymbolTable → Prop} {m : SymbolM α} {a : α} (hm : Leads R m)
    (hrun : m t = .ok a t') : R t t' := by
  have hafter := hm t
  rwa [hrun] at hafter

/-- Every name of a declaration gets a type with the property. -/
theorem keeps_defineBindings {pairs : List (Binding × DataType)}
    (hpairs : ∀ p ∈ pairs, p.2.Throughout P) : Leads (Keeps P) (defineBindings pairs) := by
  induction pairs with
  | nil => exact leads_pure []
  | cons pair pairs ih =>
    rw [List.forall_mem_cons] at hpairs
    rw [defineBindings]
    refine Leads.bind (leads_define fun _ ht => ht.withVariable hpairs.1) fun _ => ?_
    exact (ih hpairs.2).bind fun _ => leads_pure _

/-- The types of parameters stand in a signature of the table. -/
theorem keeps_checkParams {params : List (Field × DataType)}
    (hparams : ∀ p ∈ params, p.2.Throughout P) : Leads (Keeps P) (checkParams params) := by
  induction params with
  | nil => exact leads_pure ()
  | cons param params ih =>
    obtain ⟨field, type⟩ := param
    rw [List.forall_mem_cons] at hparams
    have hdefine : Leads (Keeps P) (define field.name type .parameter field.location) :=
      leads_define fun _ ht => ht.withVariable hparams.1
    rw [checkParams]
    split
    · exact (leads_throw _).bind fun _ => hdefine.bind fun _ => ih hparams.2
    · exact hdefine.bind fun _ => ih hparams.2

/-- The names of a declaration get types from the table that it is checked in. -/
theorem SymbolTable.Throughout.ofBindings (ht : t.Throughout P) (hP : DataType.Builtin P)
    {bindings : List Binding} {value : Option Expr} {initial : Option DataType}
    {types : List DataType} (hinitial : initialType t value = .ok initial)
    (htypes : bindings.mapM (bindingType t initial value.isSome) = .ok types) :
    ∀ p ∈ bindings.zip types, p.2.Throughout P := by
  have hall := forall_mem_of_forall₂ (mapM_eq_ok htypes) fun _ _ htype =>
    ht.ofBinding hP hinitial htype
  exact fun p hp => hall p.2 (List.of_mem_zip hp).2

variable (hP : DataType.Builtin P)
include hP

/-- The types of a declaration come from the table that it is checked in, so the table keeps the
property also where a name is refused. -/
theorem keeps_checkDeclaration (bindings : List Binding) (value : Option Expr) :
    Leads (Keeps P) (checkDeclaration bindings value) := by
  intro t ht
  unfold checkDeclaration
  -- an error in the types leaves the table as it is
  cases hinitial : initialType t value with
  | error e =>
    rw [EStateM.bind_of_error (query_of_error hinitial)]
    exact ht
  | ok initial =>
    rw [EStateM.bind_of_ok (query_eq_ok_iff.mpr ⟨hinitial, rfl⟩)]
    cases htypes : bindings.mapM (bindingType t initial value.isSome) with
    | error e =>
      rw [EStateM.bind_of_error (query_of_error htypes)]
      exact ht
    | ok types =>
      rw [EStateM.bind_of_ok (query_eq_ok_iff.mpr ⟨htypes, rfl⟩)]
      exact keeps_defineBindings (ht.ofBindings hP hinitial htypes) t ht

/-- Statements change a table by declarations and scopes only. -/
theorem keeps_checkStmt (result : DataType) (stmt : Stmt) :
    Leads (Keeps P) (checkStmt result stmt) :=
  leads_checkStmt (keeps_checkDeclaration hP) (fun _ _ h ht => (h ht.enterScope).exitScope)
    result stmt

theorem keeps_checkStmts (result : DataType) (stmts : List Stmt) :
    Leads (Keeps P) (checkStmts result stmts) :=
  leads_checkStmts (keeps_checkDeclaration hP) (fun _ _ h ht => (h ht.enterScope).exitScope)
    result stmts

omit hP in
/-- Each parameter has a type of the signature. -/
theorem SymbolTable.Throughout.params (ht : t.Throughout P) {name : String} {signature : Signature}
    (hsignature : t.function? name = some signature) (fields : List Field) :
    ∀ p ∈ fields.zip signature.params, p.2.Throughout P := by
  have hall := (ht.functions (name, signature) (mem_of_lookup hsignature)).1
  exact fun p hp => hall p.2 (List.of_mem_zip hp).2

/-- A function starts from a table of the globals and its parameters. -/
theorem keeps_checkTopLevel (stmt : Stmt) : Leads (Keeps P) (checkTopLevel stmt) := by
  cases stmt with
  | function location header body =>
    refine Leads.bind ?_ fun _ => leads_pure _
    intro t ht
    cases hsignature : t.function? header.name with
    | none =>
      rw [checkFunction_of_undeclared hsignature]
      exact ht
    | some signature =>
      rw [checkFunction_of_declared hsignature]
      -- the scope of the function is closed whether or not its body is accepted
      have hbody : Leads (Keeps P)
          (closing SymbolTable.exitFunction (checkStmts signature.result body)) := by
        intro u hu
        obtain ⟨v, hv, hafter⟩ :=
          (keeps_checkStmts hP signature.result body).closing SymbolTable.exitFunction u
        rw [hafter]
        exact (hv hu).exitFunction
      exact ((keeps_checkParams (ht.params hsignature header.params)).bind fun _ => hbody)
        t.enterFunction ht.enterFunction
  | struct location decl => exact leads_pure _
  | _ => exact leads_throw _

/-- What holds throughout the types of a table holds in all tables that checking goes through. -/
theorem Stmt.Visits.throughout {result : DataType} {stmts : List Stmt}
    (h : Stmt.Visits result stmts t v) (ht : t.Throughout P) : v.Throughout P := by
  induction h with
  | here => exact ht
  | @leave stmt _ t => exact keeps_checkStmt hP result stmt t ht
  | @next stmt _ _ _ _ _ hstmt _ ih => exact ih ((keeps_checkStmt hP result stmt).of_ok hstmt ht)
  | defined hinitial htypes hsplit hbefore =>
    have htypes' := ht.ofBindings hP hinitial htypes
    rw [hsplit, List.forall_mem_append] at htypes'
    exact (keeps_defineBindings htypes'.1).of_ok hbefore ht
  | alternate _ hbody _ ih =>
    obtain ⟨w, hw, rfl⟩ := inScope_eq_ok_iff.mp hbody
    exact ih ((keeps_checkStmts hP result _).of_ok hw ht.enterScope).exitScope
  | conditional _ _ ih | whileLoop _ _ ih | block _ ih => exact ih ht.enterScope

/-- If the types in the first table have a property, so have those in every table that checking a
program comes to. -/
theorem Stmt.VisitsTopLevel.throughout {stmts : List Stmt} (h : Stmt.VisitsTopLevel stmts t v)
    (ht : t.Throughout P) : v.Throughout P := by
  induction h with
  | here => exact ht
  | @leave stmt _ t => exact keeps_checkTopLevel hP stmt t ht
  | @next stmt _ _ _ _ _ hstmt _ ih => exact ih ((keeps_checkTopLevel hP stmt).of_ok hstmt ht)
  | @params _ header _ _ _ _ _ _ _ hsignature hsplit hbefore =>
    have htypes := ht.params hsignature header.params
    rw [hsplit, List.forall_mem_append] at htypes
    exact (keeps_checkParams htypes.1).of_ok hbefore ht.enterFunction
  | @body _ header _ _ _ _ _ _ hsignature hparams hbody =>
    have htypes := ht.params hsignature header.params
    exact hbody.throughout hP ((keeps_checkParams htypes).of_ok hparams ht.enterFunction)

end Keeps

/-! ### Types that are written into the tree

Lowering takes the types of variables from there. -/

mutual

/-- The bindings of all declarations in a statement. -/
def Stmt.bindings : Stmt → List Binding
  | .declare _ _ bindings _ => bindings
  | .function _ _ body | .whileLoop _ _ body | .block _ body | .conditional _ _ body none =>
    Stmt.bindingsAll body
  | .conditional _ _ body (some alternate) => Stmt.bindingsAll body ++ alternate.bindings
  | .struct .. | .ret .. | .assign .. | .print .. | .expression .. => []

/-- The bindings of all declarations in some statements. -/
def Stmt.bindingsAll : List Stmt → List Binding
  | [] => []
  | stmt :: stmts => stmt.bindings ++ Stmt.bindingsAll stmts

end

section Written

variable {P : DataType → Prop}

/-- The type that was found for a binding, if there is one, has a property throughout. -/
def Binding.Written (P : DataType → Prop) (b : Binding) : Prop :=
  ∀ type ∈ b.resolved, type.Throughout P

/-- A binding is filled in with the type that its variable gets. -/
theorem written_defineBindings {pairs : List (Binding × DataType)} {bindings : List Binding}
    (h : defineBindings pairs t = .ok bindings t') (hpairs : ∀ p ∈ pairs, p.2.Throughout P) :
    ∀ b ∈ bindings, b.Written P := by
  induction pairs generalizing t bindings with
  | nil =>
    obtain ⟨rfl, -⟩ := EStateM.pure_eq_ok_iff.mp h
    simp
  | cons pair pairs ih =>
    obtain ⟨b, type⟩ := pair
    rw [List.forall_mem_cons] at hpairs
    obtain ⟨_, _, -, others, hothers, rfl⟩ := defineBindings_cons_iff.mp h
    refine List.forall_mem_cons.mpr ⟨fun found hfound => ?_, ih hothers hpairs.2⟩
    obtain rfl := Option.some.inj hfound
    exact hpairs.1

variable (hP : DataType.Builtin P)
include hP

/-- What a declaration writes into the tree comes from the table that it is checked in. -/
theorem written_checkDeclaration {bindings bindings' : List Binding} {value : Option Expr}
    (h : checkDeclaration bindings value t = .ok bindings' t') (ht : t.Throughout P) :
    ∀ b ∈ bindings', b.Written P := by
  obtain ⟨initial, types, hinitial, htypes, hdefine⟩ := checkDeclaration_eq_ok h
  refine written_defineBindings hdefine fun pair hpair => ?_
  exact ht.ofBinding hP hinitial (List.forall₂_iff_zip.mp htypes |>.2 hpair)

mutual

/-- By induction over the statement, along the tables that its parts are checked in. -/
theorem written_checkStmt {result : DataType} :
    (stmt : Stmt) → {stmt' : Stmt} → {t t' : SymbolTable} →
      checkStmt result stmt t = .ok stmt' t' → t.Throughout P → ∀ b ∈ stmt'.bindings, b.Written P
  | .declare .., _, _, _, h, ht => by
    obtain ⟨bindings, hbindings, rfl⟩ := checkStmt_declare_iff.mp h
    exact written_checkDeclaration hP hbindings ht
  | .function .., _, _, _, h, _ | .struct .., _, _, _, h, _ => by
    rw [checkStmt] at h
    cases h
  | .ret .., _, _, _, h, _ | .assign .., _, _, _, h, _
  | .print .., _, _, _, h, _ | .expression .., _, _, _, h, _ => by
    obtain ⟨rfl, -⟩ := checkStmt_of_isFlat rfl h
    simp [Stmt.bindings]
  | .conditional _ _ body none, _, _, _, h, ht => by
    obtain ⟨-, body', u, hbody, rfl, -⟩ := checkStmt_conditional_none_iff.mp h
    exact written_checkStmts body hbody ht.enterScope
  | .conditional _ _ body (some alternate), _, _, _, h, ht => by
    obtain ⟨-, body', u, hbody, alternate', halternate, rfl⟩ :=
      checkStmt_conditional_some_iff.mp h
    -- the alternate is checked in the table behind the scope of the body
    have hafter := ((keeps_checkStmts hP result body).of_ok hbody ht.enterScope).exitScope
    rw [Stmt.bindings, List.forall_mem_append]
    exact ⟨written_checkStmts body hbody ht.enterScope,
      written_checkStmt alternate halternate hafter⟩
  | .whileLoop _ _ body, _, _, _, h, ht => by
    obtain ⟨-, body', u, hbody, rfl, -⟩ := checkStmt_whileLoop_iff.mp h
    exact written_checkStmts body hbody ht.enterScope
  | .block _ body, _, _, _, h, ht => by
    obtain ⟨body', u, hbody, rfl, -⟩ := checkStmt_block_iff.mp h
    exact written_checkStmts body hbody ht.enterScope

theorem written_checkStmts {result : DataType} :
    (stmts : List Stmt) → {stmts' : List Stmt} → {t t' : SymbolTable} →
      checkStmts result stmts t = .ok stmts' t' → t.Throughout P →
      ∀ b ∈ Stmt.bindingsAll stmts', b.Written P
  | [], _, _, _, h, _ => by
    obtain ⟨rfl, -⟩ := EStateM.pure_eq_ok_iff.mp h
    simp [Stmt.bindingsAll]
  | stmt :: stmts, _, _, _, h, ht => by
    obtain ⟨stmt', u, hstmt, stmts', hstmts, rfl⟩ := checkStmts_cons_iff.mp h
    rw [Stmt.bindingsAll, List.forall_mem_append]
    exact ⟨written_checkStmt stmt hstmt ht,
      written_checkStmts stmts hstmts ((keeps_checkStmt hP result stmt).of_ok hstmt ht)⟩

end

/-- The bindings of a function are those of its body. -/
theorem written_checkTopLevel {stmt stmt' : Stmt} (h : checkTopLevel stmt t = .ok stmt' t')
    (ht : t.Throughout P) : ∀ b ∈ stmt'.bindings, b.Written P := by
  cases stmt with
  | function location header body =>
    obtain ⟨body', hbody, rfl⟩ := checkTopLevel_function_iff.mp h
    obtain ⟨signature, params, last, hsignature, hparams, hbody, -⟩ := checkFunction_eq_ok hbody
    have htypes := ht.params hsignature header.params
    exact written_checkStmts hP body hbody
      ((keeps_checkParams htypes).of_ok hparams ht.enterFunction)
  | struct location decl =>
    obtain ⟨rfl, -⟩ := checkTopLevel_struct_iff.mp h
    simp [Stmt.bindings]
  | _ => cases h

theorem written_checkTopLevels {stmts stmts' : List Stmt}
    (h : stmts.mapM checkTopLevel t = .ok stmts' t') (ht : t.Throughout P) :
    ∀ b ∈ Stmt.bindingsAll stmts', b.Written P := by
  induction stmts generalizing t stmts' with
  | nil =>
    obtain ⟨rfl, -⟩ := EStateM.pure_eq_ok_iff.mp h
    simp [Stmt.bindingsAll]
  | cons stmt stmts ih =>
    obtain ⟨stmt', v, hstmt, rest, hrest, rfl⟩ := EStateM.mapM_cons_eq_ok_iff.mp h
    rw [Stmt.bindingsAll, List.forall_mem_append]
    exact ⟨written_checkTopLevel hP hstmt ht,
      ih hrest ((keeps_checkTopLevel hP stmt).of_ok hstmt ht)⟩

/-- So every type in a checked program has the property, if the types in the table had it before. -/
theorem written_checkProgram {program checked : Program}
    (h : checkProgram program t = .ok checked t') (ht : t.Throughout P) :
    ∀ b ∈ Stmt.bindingsAll checked.statements, b.Written P := by
  obtain ⟨stmts', u, hstmts, h⟩ := EStateM.bind_eq_ok_iff.mp h
  obtain ⟨rfl, -⟩ := EStateM.pure_eq_ok_iff.mp h
  exact written_checkTopLevels hP hstmts ht

end Written

/-! ### All types that come up

One constructor for each way in which a type can come up. -/

/-- The types that come up when a program is declared in one table and checked in the one that this
gives. -/
inductive Arises (program : Program) (t g : SymbolTable) : DataType → Prop
  /-- A struct is registered. -/
  | struct {name fields} (hstruct : (name, fields) ∈ g.structs) :
    Arises program t g (.struct name fields)
  /-- A function is registered that takes the type. -/
  | param {name signature type} (hsignature : (name, signature) ∈ g.functions)
    (hparam : type ∈ signature.params) : Arises program t g type
  /-- A function is registered that gives the type. -/
  | result {name signature} (hsignature : (name, signature) ∈ g.functions) :
    Arises program t g signature.result
  /-- An annotation stands for the type, before all structs are known. -/
  | declaring {v location written type} (hv : SymbolTable.Declares program t v)
    (htype : v.resolve location written = .ok type) : Arises program t g type
  /-- An annotation stands for the type in a scope. -/
  | annotation {v location written type} (hv : program.Visits g v)
    (htype : v.resolve location written = .ok type) : Arises program t g type
  /-- An expression has the type in a scope. -/
  | expression {v e type} (hv : program.Visits g v) (htype : typeOf v e = .ok type) :
    Arises program t g type
  /-- A variable has the type. -/
  | visible {v scope var} (hv : program.Visits g v) (hscope : scope ∈ v.scopes)
    (hvar : var ∈ scope) : Arises program t g var.type
  /-- The type is written into the tree. -/
  | written {checked t' b type} (hchecked : checkProgram program g = .ok checked t')
    (hb : b ∈ Stmt.bindingsAll checked.statements) (htype : b.resolved = some type) :
    Arises program t g type

/-- Everything that is stored is one cell wide: of every type that comes up in a program that could
be declared, and of every type inside it, array elements and struct fields are one machine value
each, and structs are the registered ones, with fields that a name tells apart. -/
theorem throughout_of_arises {program : Program} {t g : SymbolTable} {type : DataType}
    (ht : t.Fresh) (hdeclare : SymbolTable.declare program t = .ok () g)
    (htype : Arises program t g type) : type.Throughout (DataType.InCells g) := by
  have hP := DataType.builtin_inCells g
  -- a fresh table has no types in it
  have hstart : t.Throughout (DataType.InCells t) := by
    refine ⟨?_, ?_, ?_⟩
    · simp [ht.scopes]
    · simp [ht.functions]
    · simp [ht.structs]
  obtain ⟨_, t₁, hstructs, hfunctions⟩ := EStateM.bind_eq_ok_iff.mp hdeclare
  have hg : g.Throughout (DataType.InCells g) := by
    -- the table at the end is the last of those that declaring goes through
    have hlast : SymbolTable.Declares program t g :=
      .functions hstructs (List.append_nil _).symm hfunctions
    exact hlast.inCells hstart hdeclare
  cases htype with
  | struct hstruct => exact hg.structs _ hstruct
  | param hsignature hparam => exact (hg.functions _ hsignature).1 _ hparam
  | result hsignature => exact (hg.functions _ hsignature).2
  | declaring hv htype => exact (hv.inCells hstart hdeclare).resolve hP _ htype
  | annotation hv htype => exact (hv.throughout hP hg).resolve hP _ htype
  | expression hv htype => exact (hv.throughout hP hg).typeOf hP _ htype
  | visible hv hscope hvar => exact (hv.throughout hP hg).visible _ hscope _ hvar
  | written hchecked hb htype => exact written_checkProgram hP hchecked hg _ hb _ htype

/-- The fields of a point, and those of a line, which is a point with points after it. -/
def pointFields : List (String × DataType) :=
  [("x", .i32), ("label", .string)]

def lineFields : List (String × DataType) :=
  [("start", .struct "Point" pointFields), ("rest", .array (.struct "Point" pointFields))]

/-- A line without points after the first. -/
def lineValue : Expr :=
  .call ⟨4, 14⟩ "Line" [.call ⟨4, 19⟩ "Point" [.integer ⟨4, 25⟩ 1, .string ⟨4, 28⟩ "a"],
    .array ⟨4, 34⟩ []]

/-- A program with both structs and a function that declares a line. -/
def lines : Program :=
  ⟨[.struct ⟨1, 1⟩ ⟨"Point", [⟨"x", .named "i32", ⟨1, 16⟩⟩, ⟨"label", .named "string", ⟨1, 24⟩⟩]⟩,
    .struct ⟨2, 1⟩ ⟨"Line", [⟨"start", .named "Point", ⟨2, 15⟩⟩,
      ⟨"rest", .array (.named "Point"), ⟨2, 29⟩⟩]⟩,
    .function ⟨3, 1⟩ ⟨"main", [], none, false⟩
      [.declare ⟨4, 3⟩ false [⟨"line", none, none, ⟨4, 7⟩⟩] (some lineValue)]]⟩

/-- The table after its declarations. -/
def linesTable : SymbolTable :=
  { SymbolTable.empty defaultMemoryStart with
    functions := [("main", ⟨[], .none⟩)]
    structs := [("Line", lineFields), ("Point", pointFields)] }

/-- A line holds a point and an array of points: both are cells, and the struct in the cell is the
registered one. -/
theorem throughout_of_arises_line :
    (SymbolTable.empty defaultMemoryStart).Fresh ∧
      SymbolTable.declare lines (.empty defaultMemoryStart) = .ok () linesTable ∧
      Arises lines (.empty defaultMemoryStart) linesTable (.struct "Line" lineFields) ∧
      (DataType.struct "Line" lineFields).Throughout (DataType.InCells linesTable) := by
  have hfresh : (SymbolTable.empty defaultMemoryStart).Fresh := ⟨rfl, rfl, rfl, rfl, rfl⟩
  have hdeclare : SymbolTable.declare lines (.empty defaultMemoryStart) = .ok () linesTable := rfl
  -- the line is checked in the scope of the function
  have hvisits : lines.Visits linesTable linesTable.enterFunction :=
    .next rfl (.next rfl (.body rfl rfl .here))
  have htype : typeOf linesTable.enterFunction lineValue = .ok (.struct "Line" lineFields) := rfl
  have harises : Arises lines (.empty defaultMemoryStart) linesTable (.struct "Line" lineFields) :=
    .expression hvisits htype
  exact ⟨hfresh, hdeclare, harises, throughout_of_arises hfresh hdeclare harises⟩

end WasmCompiler
