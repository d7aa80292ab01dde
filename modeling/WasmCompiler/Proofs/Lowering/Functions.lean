import WasmCompiler.Proofs.Lowering.Adequacy
import WasmCompiler.Proofs.Lowering.Layout
import WasmCompiler.Proofs.Symbols.Declared

/-!
# The code of programs

Every declaration of a checked program has its function: a struct its constructor, and a function
one whose body is the code of its statements.

* `Parameters.layout` and `Parameters.frame` place the parameters in front of the declared
  variables, and those in front of the scratch locals;
* `function_adequate` says that a function that was checked is lowered, and that the table is
  afterwards as before it;
* `declarations_adequate` is the induction over the declarations of a program, whose functions are
  numbered as `declaredNames_eq` counts them.
-/

namespace WasmCompiler

open Wasm (Descriptor Function Instr ValueType)

namespace Lowering

/-! ### Parameters

What is defined before the body of a function is looked at. -/

/-- The variable that a parameter of a type becomes in a table. -/
def parameterVariable (t : SymbolTable) (name : String) (type : DataType) : Variable :=
  ⟨name, type, t.nextSlot, .parameter⟩

/-- The parameters of a function become variables, in order. -/
inductive Parameters : SymbolTable → List (Field × DataType) → SymbolTable → Prop
  | nil {t} : Parameters t [] t
  | cons {t t' field type rest} (hopen : t.scopes ≠ [])
    (hnew : SymbolTable.findIn field.name (t.scopes.headD []) = none)
    (hrest : Parameters (t.withVariable (parameterVariable t field.name type)) rest t') :
    Parameters t ((field, type) :: rest) t'

variable {g t t' : SymbolTable} {params : List (Field × DataType)}

theorem parameters_of_check {u : Unit} (h : checkParams params t = .ok u t') :
    Parameters t params t' := by
  induction params generalizing t with
  | nil =>
    obtain ⟨-, rfl⟩ := EStateM.pure_eq_ok_iff.mp h
    exact .nil
  | cons param params ih =>
    obtain ⟨field, type⟩ := param
    rw [checkParams] at h
    split at h
    · cases h
    obtain ⟨var, t₁, hdefine, hrest⟩ := EStateM.bind_eq_ok_iff.mp h
    obtain ⟨hopen, hnew, rfl, rfl⟩ :=
      SymbolTable.defineVariable_eq_ok_iff.mp (define_eq_ok_iff.mp hdefine)
    exact .cons hopen hnew (ih hrest)

/-- Lowering defines them again, in the same slots. -/
theorem defineParams_eq_ok (h : Parameters t params t') (s : List ValueType) :
    defineParams params ⟨t, s⟩ = .ok () ⟨t', s⟩ := by
  induction h with
  | nil => rfl
  | @cons t t' field type rest hopen hnew _ ih =>
    have hdefine : define field.name type .parameter field.location ⟨t, s⟩ =
        .ok (parameterVariable t field.name type)
          ⟨t.withVariable (parameterVariable t field.name type), s⟩ := by
      rw [define, SymbolTable.defineVariable_eq_ok_iff.mpr ⟨hopen, hnew, rfl, rfl⟩]
      rfl
    rw [defineParams, EStateM.bind_of_ok hdefine]
    exact ih

/-- The structs and signatures that are known stay known. -/
theorem Parameters.continues (h : Parameters t params t') (ht : g.Continues t)
    (hparams : ∀ p ∈ params, p.2.WellFormed) : g.Continues t' := by
  induction h with
  | nil => exact ht
  | cons _ _ _ ih =>
    rw [List.forall_mem_cons] at hparams
    exact ih (ht.withVariable hparams.1) hparams.2

/-- Parameters are variables, and nothing else of the table changes. -/
theorem Parameters.sameGlobals (h : Parameters t params t') : t.SameGlobals t' := by
  induction h with
  | nil => exact .refl _
  | cons _ _ _ ih => exact ⟨ih.functions, ih.structs, ih.strings, ih.exportsMemory⟩

/-- Parameters take the first slots, in order. -/
theorem Parameters.layout {before : List ValueType} (h : Parameters t params t')
    (ht : t.Layout before) (hdeclared : t.declared = []) :
    t'.Layout (before ++ DataType.machineTypesAll (params.map (·.2))) ∧ t'.declared = [] := by
  induction h generalizing before with
  | nil => exact ⟨by simpa [DataType.machineTypesAll] using ht, hdeclared⟩
  | @cons t t' field type rest _ _ _ ih =>
    have hdeclared' : (t.withVariable (parameterVariable t field.name type)).declared = [] := by
      simp [SymbolTable.withVariable, parameterVariable, hdeclared]
    have hlayout : (t.withVariable (parameterVariable t field.name type)).Layout
        (before ++ type.machineTypes) := by
      refine ht.withVariable rfl ?_
      rw [SymbolTable.slotTypes, SymbolTable.slotTypes, hdeclared', hdeclared]
      simp [parameterVariable]
    obtain ⟨hlayout', hdeclared''⟩ := ih hlayout hdeclared'
    refine ⟨?_, hdeclared''⟩
    rwa [List.append_assoc] at hlayout'

/-- Parameters go into the innermost scope. -/
theorem Parameters.scopes (h : Parameters t params t') (ht : t.scopes ≠ []) :
    t'.scopes ≠ [] ∧ t'.scopes.tail = t.scopes.tail := by
  induction h with
  | nil => exact ⟨ht, rfl⟩
  | cons _ _ _ ih =>
    obtain ⟨hopen, htail⟩ := ih (by simp [SymbolTable.withVariable])
    exact ⟨hopen, htail.trans (by simp [SymbolTable.withVariable])⟩

/-! ### Functions

The body of a function, in the scope of its parameters. -/

/-- The function that a function of a program is lowered to. Its locals are the declared variables
and then the scratch locals, which begin where the slots end. -/
inductive FunctionCode (program : Program) (g : SymbolTable) (header : FunctionHeader)
    (body : List Stmt) (signature : Signature) : Function → Prop
  | intro {t t' scratch code}
    (hparams : Parameters g.enterFunction (header.params.zip signature.params) t)
    (hbody : StmtsCode ⟨functionIndices program, allocatorIndex program, t'.nextSlot⟩
      signature.result t [] body code t' scratch) :
    FunctionCode program g header body signature
      { name := header.name
        type := ⟨DataType.machineTypesAll signature.params, signature.result.machineTypes⟩
        locals := t'.declared.flatMap (·.type.machineTypes) ++ scratch
        body := code ++ if signature.result.isNone then [] else [.unreachable]
        exported := header.exported || header.name = mainName }

/-- The function that a declaration of a program is lowered to. -/
inductive DeclarationCode (program : Program) (g : SymbolTable) : Stmt → Function → Prop
  | struct {location decl fields} (hfields : g.struct? decl.name = some fields) :
    DeclarationCode program g (.struct location decl)
      (constructor (allocatorIndex program) decl.name fields)
  | function {location header body signature function}
    (hsignature : g.function? header.name = some signature)
    (hlength : signature.params.length = header.params.length)
    (hcode : FunctionCode program g header body signature function) :
    DeclarationCode program g (.function location header body) function

/-- A table between two functions: no variable is known and no slot is taken. -/
structure Idle (g : SymbolTable) : Prop where
  scopes : g.scopes = []
  nextSlot : g.nextSlot = 0
  declared : g.declared = []

/-- After a function the table is as before it. -/
theorem exitFunction_eq (hg : Idle g) (ht : g.Continues t) (htail : t.scopes.tail = []) :
    t.exitFunction = g := by
  obtain ⟨scopes, functions, structs, strings, nextSlot, declared, exportsMemory⟩ := g
  obtain ⟨rfl, rfl, rfl⟩ := hg
  simp only [SymbolTable.exitFunction, SymbolTable.leaveFunction, SymbolTable.exitScope, htail,
    ht.globals.functions, ht.globals.structs,
    ht.globals.strings, ht.globals.exportsMemory]

theorem layout_enterFunction (hg : Idle g) : g.enterFunction.Layout [] := by
  refine ⟨rfl, ?_, ?_⟩ <;> simp [SymbolTable.enterFunction, hg.scopes]

/-- The locals of a function beyond its parameters end where its slots do. -/
theorem Parameters.frame {scratch : List ValueType} {body : List Stmt} {code : List Instr}
    {f : FunctionContext} {result : DataType} (hg : Idle g)
    (hparams : Parameters g.enterFunction params t)
    (hbody : StmtsCode f result t [] body code t' scratch) :
    t'.Layout (DataType.machineTypesAll (params.map (·.2))) ∧
      t'.nextSlot = t.nextSlot + (t'.declared.flatMap (·.type.machineTypes)).length := by
  obtain ⟨hlayout, hdeclared⟩ := hparams.layout (layout_enterFunction hg) rfl
  rw [List.nil_append] at hlayout
  obtain ⟨hlayout', -⟩ := hbody.layout hlayout
  refine ⟨hlayout', ?_⟩
  rw [hlayout'.nextSlot, hlayout.nextSlot]
  simp [SymbolTable.slotTypes, hdeclared]

/-- To leave a function gives what it declared and the table without it. -/
theorem leaveFunction_apply (t : SymbolTable) (s : List ValueType) :
    leaveFunction ⟨t, s⟩ = .ok t.declared ⟨t.exitFunction, s⟩ :=
  rfl

section Body

variable {program : Program} {header : FunctionHeader} {body : List Stmt} {signature : Signature}
  {u last : SymbolTable} {width : Nat}
  (hparams : defineParams (header.params.zip signature.params) ⟨u.enterFunction, []⟩ =
    .ok () ⟨t, []⟩)
  (hwidth : framesWidth body = .ok width)
include hparams hwidth

/-- Lowering a body gives the locals that were declared, then the scratch locals, if the slots fill
the frame that was computed beforehand. -/
theorem lowerBody_eq_ok {code : List Instr} {scratch : List ValueType}
    (hlower : lowerStmts ⟨functionIndices program, allocatorIndex program, t.nextSlot + width⟩
      body ⟨t, []⟩ = .ok code ⟨last, scratch⟩)
    (hsize : t.nextSlot + (last.declared.flatMap (·.type.machineTypes)).length =
      t.nextSlot + width) :
    lowerBody program header body signature ⟨u, []⟩ =
      .ok (last.declared.flatMap (·.type.machineTypes) ++ scratch,
        code ++ if signature.result.isNone then [] else [.unreachable])
        ⟨last.exitFunction, scratch⟩ := by
  simp only [lowerBody, bind, EStateM.bind, EStateM.modify_apply, withTable, hparams,
    EStateM.get_apply, lift, hwidth, pure, EStateM.pure, hlower, leaveFunction_apply, hsize,
    if_true]

/-- An error in the statements is the error of the body. -/
theorem lowerBody_eq_error {e : LoweringError} {s : LoweringState}
    (hlower : lowerStmts ⟨functionIndices program, allocatorIndex program, t.nextSlot + width⟩
      body ⟨t, []⟩ = .error e s) :
    lowerBody program header body signature ⟨u, []⟩ = .error e s := by
  simp only [lowerBody, bind, EStateM.bind, EStateM.modify_apply, withTable, hparams,
    EStateM.get_apply, lift, hwidth, pure, EStateM.pure, hlower]

end Body

/-- What is asked of an expression of a program whose declarations are in `g`, in the table it is
checked in. -/
def Allowed (g : SymbolTable) (p : SymbolTable × Expr) : Prop :=
  ∀ s ∈ p.2.parts, s.LiteralFits g.strings ∧ s.endsInEmptyArray = false ∧
    ∀ type, typeOf p.1 s = .ok type → type.AvoidsFloatTuples

/-- What is known of the declarations is still known inside of a function. -/
theorem Allowed.admissible {p : SymbolTable × Expr} (h : Allowed g p) (hp : g.Continues p.1) :
    p.2.Admissible p.1 := by
  intro s hs
  rw [hp.globals.strings]
  exact h s hs

/-- A function that was checked is lowered, and the table is afterwards as before. -/
theorem function_adequate {program : Program} {location : Location} {header : FunctionHeader}
    {body body' : List Stmt} {signature : Signature} (hg : Idle g) (hwf : g.WellFormed)
    (hcomplete : LoweringContext.Complete
      ⟨g, functionIndices program, allocatorIndex program, 0⟩)
    (hsignature : g.function? header.name = some signature)
    (hlength : signature.params.length = header.params.length) (hregular : Stmt.AllRegular body)
    (hscoped : ∀ p ∈ Stmt.scopedExprsTopLevel g (.function location header body), Allowed g p)
    (h : checkFunction location header body g = .ok body' t') :
    t' = g ∧ ∃ function, lowerFunction program header body' g = .ok function g ∧
      DeclarationCode program g (.function location header body') function := by
  obtain ⟨signature', t, t₁, hfound, hcheck, hbody, rfl⟩ := checkFunction_eq_ok h
  obtain rfl : signature = signature' := Option.some.inj (hsignature.symm.trans hfound)
  have hparams := parameters_of_check hcheck
  have hwfParams : ∀ p ∈ header.params.zip signature.params, p.2.WellFormed := fun p hp =>
    (hwf.functions _ (mem_of_lookup hsignature)).1 p.2 (List.of_mem_zip hp).2
  have hcontinues : g.Continues t :=
    hparams.continues ⟨hwf.enterFunction, ⟨rfl, rfl, rfl, rfl⟩⟩ hwfParams
  -- the scratch locals begin where the slots end, which checking knows already
  let f : FunctionContext := ⟨functionIndices program, allocatorIndex program, t₁.nextSlot⟩
  rw [Stmt.scopedExprsTopLevel, hsignature] at hscoped
  simp only [hcheck, tableAfter] at hscoped
  have hadmissible : ∀ p ∈ Stmt.scopedExprsAll signature.result body t, p.2.Admissible p.1 :=
    fun p hp => (hscoped p hp).admissible (continues_of_mem_scopedExprsAll body hbody hcontinues hp)
  obtain ⟨code, scratch, hlower, hcode⟩ :=
    stmts_adequate (show (f.withSymbols g).Complete from hcomplete) body hregular hadmissible
      hcontinues hbody []
  obtain ⟨hlayout, hframe⟩ := hparams.frame hg hcode
  obtain ⟨width, hwidth, hnext⟩ := hcode.framesWidth
  obtain ⟨hopen, htail⟩ := hparams.scopes (by simp [SymbolTable.enterFunction])
  have hclosed : t₁.scopes.tail = [] := by
    rw [(hcode.scopes hopen).2, htail]
    exact hg.scopes
  have hexit : t₁.exitFunction = g :=
    exitFunction_eq hg (continues_checkStmts body hbody hcontinues) hclosed
  have hlowerBody : lowerBody program header body' signature ⟨g, []⟩ =
      .ok (t₁.declared.flatMap (·.type.machineTypes) ++ scratch,
        code ++ if signature.result.isNone then [] else [.unreachable]) ⟨g, scratch⟩ := by
    have hdefine : defineParams (header.params.zip signature.params) ⟨g.enterFunction, []⟩ =
        .ok () ⟨t, []⟩ := defineParams_eq_ok hparams []
    have hlower' : lowerStmts ⟨functionIndices program, allocatorIndex program,
        t.nextSlot + width⟩ body' ⟨t, []⟩ = .ok code ⟨t₁, scratch⟩ := by
      rw [← hnext]
      exact hlower
    have hsize : t.nextSlot + (t₁.declared.flatMap (·.type.machineTypes)).length =
        t.nextSlot + width := by
      rw [← hframe, hnext]
    rw [lowerBody_eq_ok hdefine hwidth hlower' hsize, hexit]
  refine ⟨hexit, _, ?_, .function hsignature hlength (.intro hparams hcode)⟩
  simp only [lowerFunction, hsignature, hlowerBody]

/-! ### Programs

All declarations, one after another, in a table that they leave as it is. -/

/-- Functions with different names are found by them. -/
theorem functionIndex?_eq_some {d : Descriptor} {functions rest : List Function}
    (hfunctions : d.functions = functions ++ rest) (hnodup : (functions.map (·.name)).Nodup)
    {k : Nat} {function : Function} (hfunction : functions[k]? = some function) :
    d.functionIndex? function.name = some (d.imports.length + k) := by
  obtain ⟨hlt, hget⟩ := List.getElem?_eq_some_iff.mp hfunction
  have hfind : functions.findIdx? (·.name = function.name) = some k := by
    rw [List.findIdx?_eq_some_iff_getElem]
    refine ⟨hlt, by simp [hget], fun j hj => ?_⟩
    -- an earlier function of the name would be the same one
    rw [decide_eq_true_eq]
    intro hname
    have hk : k < (functions.map (·.name)).length := by rwa [List.length_map]
    refine List.pairwise_iff_getElem.mp hnodup j k (Nat.lt_trans hj hk) hk hj ?_
    rw [List.getElem_map, List.getElem_map, hname, hget]
  rw [Descriptor.functionIndex?, hfunctions, List.findIdx?_append, hfind]
  rfl

/-- Declarations that differ in the bodies of functions only. -/
inductive SameHeader : Stmt → Stmt → Prop
  | struct {location decl} : SameHeader (.struct location decl) (.struct location decl)
  | function {location header body body'} :
    SameHeader (.function location header body) (.function location header body')

/-- Checking fills in types in the bodies only. -/
theorem sameHeader_of_check {stmts stmts' : List Stmt}
    (h : stmts.mapM checkTopLevel g = .ok stmts' t') : List.Forall₂ SameHeader stmts stmts' := by
  induction stmts generalizing g stmts' with
  | nil =>
    obtain ⟨rfl, -⟩ := EStateM.pure_eq_ok_iff.mp h
    exact .nil
  | cons stmt stmts ih =>
    obtain ⟨stmt', t, hstmt, rest, hrest, rfl⟩ := EStateM.mapM_cons_eq_ok_iff.mp h
    refine .cons ?_ (ih hrest)
    cases stmt with
    | function location header body =>
      obtain ⟨body', -, rfl⟩ := checkTopLevel_function_iff.mp hstmt
      exact .function
    | struct location decl =>
      obtain ⟨rfl, -⟩ := checkTopLevel_struct_iff.mp hstmt
      exact .struct
    | _ => cases hstmt

/-- Declarations that differ in their bodies only declare the same names. -/
theorem declaredNames_sameHeader {stmts stmts' : List Stmt}
    (h : List.Forall₂ SameHeader stmts stmts') :
    stmts.filterMap declaredName? = stmts'.filterMap declaredName? := by
  induction h with
  | nil => rfl
  | cons hstmt _ ih => cases hstmt <;> simp [declaredName?, ih]

/-- Every checked function comes from one of the program. -/
theorem function_mem_of_sameHeader {stmts stmts' : List Stmt} {location : Location}
    {header : FunctionHeader} {body' : List Stmt} (h : List.Forall₂ SameHeader stmts stmts')
    (hmem : Stmt.function location header body' ∈ stmts') :
    ∃ body, Stmt.function location header body ∈ stmts := by
  induction h with
  | nil => cases hmem
  | cons hstmt _ ih =>
    rcases List.mem_cons.mp hmem with rfl | hmem
    · cases hstmt
      exact ⟨_, List.mem_cons_self ..⟩
    · obtain ⟨body, hbody⟩ := ih hmem
      exact ⟨body, List.mem_cons_of_mem _ hbody⟩

/-- Functions are named, and numbered, as they are declared. -/
theorem declaredNames_eq {program : Program} {stmts : List Stmt} {functions : List Function}
    (h : List.Forall₂ (DeclarationCode program g) stmts functions) :
    stmts.filterMap declaredName? = functions.map (·.name) := by
  induction h with
  | nil => rfl
  | cons hstmt _ ih =>
    cases hstmt with
    | struct _ => simp [declaredName?, constructor, ih]
    | function _ _ hcode =>
      cases hcode
      simp [declaredName?, ih]

/-- Declarations that were checked are lowered, and the table is afterwards as before. -/
theorem declarations_adequate {program : Program} {stmts stmts' : List Stmt} (hg : Idle g)
    (hwf : g.WellFormed)
    (hcomplete : LoweringContext.Complete
      ⟨g, functionIndices program, allocatorIndex program, 0⟩)
    (hstructs : ∀ location decl, Stmt.struct location decl ∈ stmts →
      ∃ fields, g.struct? decl.name = some fields)
    (hfunctions : ∀ location header body, Stmt.function location header body ∈ stmts →
      ∃ signature, g.function? header.name = some signature ∧
        signature.params.length = header.params.length)
    (hregular : Stmt.AllRegular stmts)
    (hscoped : ∀ p ∈ stmts.flatMap (Stmt.scopedExprsTopLevel g), Allowed g p)
    (h : stmts.mapM checkTopLevel g = .ok stmts' t') :
    t' = g ∧ ∃ functions, lowerDeclarations program stmts' g = .ok functions g ∧
      List.Forall₂ (DeclarationCode program g) stmts' functions := by
  induction stmts generalizing stmts' with
  | nil =>
    obtain ⟨rfl, rfl⟩ := EStateM.pure_eq_ok_iff.mp h
    exact ⟨rfl, [], rfl, .nil⟩
  | cons stmt stmts ih =>
    obtain ⟨stmt', t, hstmt, rest, hrest, rfl⟩ := EStateM.mapM_cons_eq_ok_iff.mp h
    rw [List.flatMap_cons, List.forall_mem_append] at hscoped
    have ih := @ih rest (fun l d hd => hstructs l d (List.mem_cons_of_mem _ hd))
      (fun l d b hd => hfunctions l d b (List.mem_cons_of_mem _ hd)) hregular.2 hscoped.2
    cases stmt with
    | function location header body =>
      obtain ⟨body', hbody, rfl⟩ := checkTopLevel_function_iff.mp hstmt
      obtain ⟨signature, hsignature, hlength⟩ :=
        hfunctions location header body (List.mem_cons_self ..)
      -- the table is again that of the globals, so the rest is lowered from where this began
      obtain ⟨rfl, function, hlower, hcode⟩ := function_adequate hg hwf hcomplete hsignature hlength
        hregular.1 hscoped.1 hbody
      obtain ⟨rfl, functions, hlowerRest, hcodes⟩ := ih hrest
      refine ⟨rfl, function :: functions, ?_, .cons hcode hcodes⟩
      rw [lowerDeclarations, EStateM.bind_of_ok hlower, EStateM.bind_of_ok hlowerRest]
      rfl
    | struct location decl =>
      obtain ⟨rfl, rfl⟩ := checkTopLevel_struct_iff.mp hstmt
      obtain ⟨fields, hfields⟩ := hstructs location decl (List.mem_cons_self ..)
      obtain ⟨rfl, functions, hlowerRest, hcodes⟩ := ih hrest
      have hlower : lowerStruct program decl.name t' =
          .ok (constructor (allocatorIndex program) decl.name fields) t' := by
        simp only [lowerStruct, hfields]
      refine ⟨rfl, _ :: functions, ?_, .cons (.struct hfields) hcodes⟩
      rw [lowerDeclarations, EStateM.bind_of_ok hlower, EStateM.bind_of_ok hlowerRest]
      rfl
    | _ => cases hstmt

end Lowering

end WasmCompiler
