import WasmCompiler.Proofs.Lowering.Relocatable
import WasmCompiler.Proofs.Lowering.Slots

/-!
# Linking of lowered programs

The code of statements, of functions and of whole programs is linked relocatable code, as that of
expressions is. The site of a function (`Site`) has the numbers of the functions and the addresses
of the literals; `RelocatesTo` says of a declaration that one relocatable function gives what it is
lowered to in every program that declares it and at every place of the string pool.

* `LinksIn` is what one step of the lowering satisfies, with rules for a bind and for a scope;
  `linksIn_lowerStmt` is the induction over statements;
* `CheckedIn.relocatesTo` and `struct_relocatesTo` treat the two kinds of declarations;
* `generated_of_generate` takes a run of `generate` apart, and `Generated.relocatable` gives the
  relocatable functions of the program.
-/

namespace WasmCompiler

open Wasm (Descriptor FuncType Function Instr Linking Relocatable ValueType)
open Wasm.Relocatable (linkAll ofPlain)
open SymbolTable (Alike)

/-! ### Steps of lowering a statement

What varies between two compilations of the same function, and what does not. -/

/-- What a function is lowered with, beside its variables. -/
structure Site where
  context : FunctionContext
  strings : StringPool

namespace Site

/-- The numbers and addresses of a site. -/
abbrev linking (w : Site) : Linking :=
  Lowering.linking w.context.indices w.context.allocator w.strings

/-- A site that differs in numbers and addresses only, with a table that looks alike. -/
structure Variant (w₀ : Site) (u₀ : SymbolTable) (w : Site) (u : SymbolTable) : Prop where
  scratchBase : w.context.scratchBase = w₀.context.scratchBase
  symbols : Alike u₀ u
  strings : u.strings = w.strings

theorem Variant.refl {w₀ : Site} {u₀ : SymbolTable} (h : u₀.strings = w₀.strings) :
    Variant w₀ u₀ w₀ u₀ :=
  ⟨rfl, .refl u₀, h⟩

end Site

namespace Lowering

section LinksIn

variable {α β τ υ : Type} {w₀ : Site} {link : Linking → τ → α} {P : τ → Prop}
  {link' : Linking → υ → β} {Q : υ → Prop}

/-- If a step succeeds at the site `w₀` then something relocatable gives its result, at this site
and at every variant of it, and the tables look alike again. -/
def LinksIn (w₀ : Site) (link : Linking → τ → α) (P : τ → Prop) (x : Site → LoweringM α) : Prop :=
  ∀ u₀ s a₀ s₀', u₀.strings = w₀.strings → x w₀ ⟨u₀, s⟩ = .ok a₀ s₀' →
    ∃ r, P r ∧ ∀ w u, Site.Variant w₀ u₀ w u → ∀ a s', x w ⟨u, s⟩ = .ok a s' →
      a = link w.linking r ∧ s'.scratch = s₀'.scratch ∧
        Site.Variant w₀ s₀'.symbols w s'.symbols

/-- What depends on the numbers and addresses through linking only. -/
theorem linksIn_pure {a : Site → α} (r : τ) (hr : P r) (h : ∀ w, a w = link w.linking r) :
    LinksIn w₀ link P fun w => pure (a w) := by
  intro u₀ s a₀ s₀' _ h₀
  obtain ⟨-, rfl⟩ := EStateM.pure_eq_ok_iff.mp h₀
  refine ⟨r, hr, fun w u hu b s' hb => ?_⟩
  obtain ⟨rfl, rfl⟩ := EStateM.pure_eq_ok_iff.mp hb
  exact ⟨h w, rfl, hu⟩

theorem linksIn_abort {what : Invariant} {location : Location} :
    LinksIn w₀ link P fun _ => abort what location := by
  intro u₀ s a₀ s₀' _ h₀
  cases h₀

/-- The second step is given what the first one links to. -/
theorem LinksIn.bind {x : Site → LoweringM α} {k : Site → α → LoweringM β}
    (hx : LinksIn w₀ link P x)
    (hk : ∀ r, P r → LinksIn w₀ link' Q fun w => k w (link w.linking r)) :
    LinksIn w₀ link' Q fun w => x w >>= k w := by
  intro u₀ s b₀ s₀'' hstrings h₀
  obtain ⟨a₀, ⟨u₁, s₁⟩, ha₀, hb₀⟩ := EStateM.bind_eq_ok_iff.mp h₀
  obtain ⟨r, hr, hall⟩ := hx u₀ s a₀ _ hstrings ha₀
  -- the site is a variant of itself, so linking `r` there gives what the first step gave
  obtain ⟨rfl, -, hself⟩ := hall w₀ u₀ (.refl hstrings) a₀ _ ha₀
  obtain ⟨r', hr', hall'⟩ := hk r hr u₁ s₁ b₀ s₀'' hself.strings hb₀
  refine ⟨r', hr', fun w u hu b s'' h => ?_⟩
  obtain ⟨a, ⟨u', s'⟩, ha, hb⟩ := EStateM.bind_eq_ok_iff.mp h
  obtain ⟨rfl, hscratch, hu'⟩ := hall w u hu a _ ha
  obtain rfl : s' = s₁ := hscratch
  exact hall' w u' hu' b s'' hb

/-- Lowering an expression reads the table. -/
theorem linksIn_expr {lower : LoweringContext → ScratchM α}
    (h : ∀ u₀, Links (w₀.context.withSymbols u₀) link P lower) :
    LinksIn w₀ link P fun w => expr w.context lower := by
  intro u₀ s a₀ s₀' hstrings h₀
  simp only [expr] at h₀
  split at h₀
  · rename_i b₀ s₁ hlower₀
    obtain ⟨rfl, rfl⟩ := EStateM.Result.ok.inj h₀
    -- an expression is lowered with the table as it stands, and leaves it alone
    obtain ⟨r, hr, hall⟩ := h u₀ s b₀ s₁ hlower₀
    refine ⟨r, hr, fun w u hu b s' hb => ?_⟩
    simp only [expr] at hb
    split at hb
    · rename_i b' s₂ hlower
      obtain ⟨rfl, rfl⟩ := EStateM.Result.ok.inj hb
      obtain ⟨rfl, rfl⟩ :=
        hall (w.context.withSymbols u) ⟨hu.symbols, hu.scratchBase⟩ b' s₂ hlower
      refine ⟨?_, rfl, hu⟩
      show link (linking w.context.indices w.context.allocator u.strings) r = _
      rw [hu.strings]
    · cases hb
  · cases h₀

/-- A variable gets the same slot in tables that look alike. -/
theorem linksIn_define (name : String) (type : DataType) (role : Role) (location : Location) :
    LinksIn w₀ (fun _ var => var) (fun _ => True) fun _ => define name type role location := by
  intro u₀ s var₀ s₀' hstrings h₀
  simp only [define] at h₀
  split at h₀
  · rename_i var t₀ hdefine₀
    obtain ⟨rfl, rfl⟩ := EStateM.Result.ok.inj h₀
    refine ⟨var, trivial, fun w u hu var' s' h => ?_⟩
    obtain ⟨u', hdefine, halike⟩ := hu.symbols.defineVariable hdefine₀
    simp only [define, hdefine] at h
    obtain ⟨rfl, rfl⟩ := EStateM.Result.ok.inj h
    obtain ⟨-, -, -, rfl⟩ := SymbolTable.defineVariable_eq_ok_iff.mp hdefine
    exact ⟨rfl, rfl, hu.scratchBase, halike, hu.strings⟩
  · cases h₀

theorem LinksIn.inScope {x : Site → LoweringM α} (hx : LinksIn w₀ link P x) :
    LinksIn w₀ link P fun w => inScope (x w) := by
  intro u₀ s a₀ s₀' hstrings h₀
  simp only [Lowering.inScope] at h₀
  split at h₀
  · rename_i b₀ s₁ hrun₀
    obtain ⟨rfl, rfl⟩ := EStateM.Result.ok.inj h₀
    obtain ⟨r, hr, hall⟩ := hx u₀.enterScope s b₀ s₁ hstrings hrun₀
    refine ⟨r, hr, fun w u hu b s' h => ?_⟩
    simp only [Lowering.inScope] at h
    split at h
    · rename_i b' s₂ hrun
      obtain ⟨rfl, rfl⟩ := EStateM.Result.ok.inj h
      -- a table that matches still does in a new scope, and after it
      obtain ⟨hb, hscratch, hu'⟩ :=
        hall w u.enterScope ⟨hu.scratchBase, hu.symbols.enterScope, hu.strings⟩ b' s₂ hrun
      exact ⟨hb, hscratch, hu'.scratchBase, hu'.symbols.exitScope, hu'.strings⟩
    · cases h
  · cases h₀

end LinksIn

/-! ### Statements

One case for each form, from the rules for steps. -/

section Stmt

variable {w₀ : Site}

/-- The code of an expression is relocatable, and its literals are those of the expression. -/
theorem linksIn_lowerExpr (e : Expr) :
    LinksIn w₀ linkLowered (fun r => Relocatable.textsAll r.1 = e.texts)
      fun w => expr w.context (lowerExpr · e) :=
  linksIn_expr fun _ => links_lowerExpr _ e

/-- The names of a declaration, one after the other. -/
theorem linksIn_defineBindings (location : Location) (bindings : List Binding) :
    LinksIn w₀ (fun _ vars => vars) (fun _ => True) fun _ => defineBindings location bindings := by
  induction bindings with
  | nil => exact linksIn_pure [] trivial fun _ => rfl
  | cons b bs ih =>
    simp only [defineBindings]
    cases b.resolved with
    | none => exact linksIn_abort
    | some type =>
      apply (linksIn_define b.name type .declaration b.location).bind
      intro var _
      exact ih.bind fun vars _ => linksIn_pure (var :: vars) trivial fun _ => rfl

theorem isPlain_zeroSlots (var : Variable) : (zeroSlots var).all Instr.isPlain = true := by
  rw [zeroSlots, List.all_flatMap]
  refine List.all_eq_true.mpr fun entry _ => ?_
  obtain ⟨type, k⟩ := entry
  cases type <;> rfl

theorem isPlain_initialCode (first : Variable) (others : List Variable) :
    (initialCode first others).all Instr.isPlain = true := by
  rw [initialCode, List.all_append, isPlain_setSlots, List.all_flatMap, Bool.true_and]
  refine List.all_eq_true.mpr fun var _ => ?_
  rw [copySlots, List.all_flatMap]
  exact List.all_eq_true.mpr fun k _ => rfl

/-- The literals of a declaration are those of its value. -/
theorem linksIn_lowerDeclaration (location : Location) (bindings : List Binding)
    (value : Option Expr) :
    LinksIn w₀ linkAll (fun code => Relocatable.textsAll code = value.toList.flatMap Expr.texts)
      fun w => lowerDeclaration w.context location bindings value := by
  cases value with
  | none =>
    simp only [lowerDeclaration]
    apply (linksIn_defineBindings location bindings).bind
    intro vars _
    have hplain : (vars.flatMap zeroSlots).all Instr.isPlain = true := by
      rw [List.all_flatMap]
      exact List.all_eq_true.mpr fun var _ => isPlain_zeroSlots var
    exact linksIn_pure (ofPlain _ hplain) (by simp) fun _ => by simp
  | some e =>
    simp only [lowerDeclaration]
    apply (linksIn_lowerExpr e).bind
    intro r hr
    apply (linksIn_defineBindings location bindings).bind
    rintro (_ | ⟨first, others⟩) _
    · exact linksIn_abort
    · refine linksIn_pure (r.1 ++ ofPlain _ (isPlain_initialCode first others)) ?_ fun _ => ?_
      · simpa using hr
      · simp

/-- The literals of the target come before those of the value. -/
theorem linksIn_lowerAssignment (value target : Expr) :
    LinksIn w₀ linkAll (fun code => Relocatable.textsAll code = target.texts ++ value.texts)
      fun w => lowerAssignment w.context value target := by
  cases target with
  | identifier location name =>
    -- the slot depends on the table, so the state is opened here; variants have the same variable
    intro u₀ s code₀ s₀' hstrings h₀
    simp only [lowerAssignment] at h₀ ⊢
    obtain ⟨s₁, s₂, hget, h₀⟩ := EStateM.bind_eq_ok_iff.mp h₀
    obtain ⟨rfl, rfl⟩ := EStateM.get_eq_ok_iff.mp hget
    dsimp only at h₀
    cases hvar : u₀.lookupVariable? name with
    | none =>
      rw [hvar] at h₀
      cases h₀
    | some var =>
      rw [hvar] at h₀
      have hrest : LinksIn w₀ linkAll (fun code => Relocatable.textsAll code = value.texts)
          fun w => do
            let l ← expr w.context (lowerExpr · value)
            return l.code ++ setSlots var.slot var.type.width := by
        apply (linksIn_lowerExpr value).bind
        intro r hr
        refine linksIn_pure (r.1 ++ ofPlain _ (isPlain_setSlots var.slot var.type.width)) ?_ ?_
        · exact texts_append_plain hr _
        · simp
      obtain ⟨code, hcode, hall⟩ := hrest u₀ s code₀ s₀' hstrings h₀
      refine ⟨code, hcode, fun w u hu code' s' h => hall w u hu code' s' ?_⟩
      obtain ⟨s₁, s₂, hget, h⟩ := EStateM.bind_eq_ok_iff.mp h
      obtain ⟨rfl, rfl⟩ := EStateM.get_eq_ok_iff.mp hget
      dsimp only at h
      rwa [hu.symbols.lookupVariable?, hvar] at h
  | member location base name =>
    simp only [lowerAssignment]
    apply (linksIn_lowerExpr base).bind
    intro b hb
    apply (linksIn_expr fun _ => links_const (fieldOf b.2 name base.location)).bind
    rintro ⟨i, type⟩ _
    apply (linksIn_lowerExpr value).bind
    intro r hr
    refine linksIn_pure (b.1 ++ r.1 ++ ofPlain [storeCell type i]) ?_ fun _ => ?_
    · apply texts_append_plain
      rw [Relocatable.textsAll_append, hb, hr]
      rfl
    · simp
  | _ => exact linksIn_abort

mutual

/-- By induction over the statement, whose literals come in the order of the text. -/
theorem linksIn_lowerStmt (w₀ : Site) : (stmt : Stmt) →
    LinksIn w₀ linkAll (fun code => Relocatable.textsAll code = stmt.texts)
      fun w => lowerStmt w.context stmt
  | .declare location _ bindings value => by
    simp only [lowerStmt]
    exact linksIn_lowerDeclaration location bindings value
  | .function .. | .struct .. => by
    simp only [lowerStmt]
    exact linksIn_abort
  | .ret _ none => by
    simp only [lowerStmt]
    exact linksIn_pure (ofPlain [.ret]) (by simp; rfl) fun _ => by simp
  | .ret _ (some value) => by
    simp only [lowerStmt]
    apply (linksIn_lowerExpr value).bind
    intro r hr
    refine linksIn_pure (r.1 ++ ofPlain [.ret]) ?_ fun _ => by simp
    simp [hr, Stmt.texts, Stmt.exprs]
  | .assign _ target value => by
    simp only [lowerStmt, Stmt.texts, Stmt.exprs, List.flatMap_cons, List.flatMap_nil,
      List.append_nil]
    exact linksIn_lowerAssignment value target
  | .conditional _ condition body none => by
    simp only [lowerStmt]
    apply (linksIn_lowerExpr condition).bind
    intro r hr
    apply (linksIn_lowerStmts w₀ body).inScope.bind
    intro code hcode
    refine linksIn_pure (r.1 ++ [.branch none code none]) ?_ fun _ => ?_
    · simp [Relocatable.textsAll, Relocatable.texts, hr, hcode, Stmt.texts, Stmt.exprs,
        Stmt.textsAll]
    · simp [linkAll, Relocatable.link]
  | .conditional _ condition body (some alternate) => by
    simp only [lowerStmt]
    apply (linksIn_lowerExpr condition).bind
    intro r hr
    apply (linksIn_lowerStmts w₀ body).inScope.bind
    intro code hcode
    apply (linksIn_lowerStmt w₀ alternate).bind
    intro other hother
    refine linksIn_pure (r.1 ++ [.branch none code (some other)]) ?_ fun _ => ?_
    · simp [Relocatable.textsAll, Relocatable.texts, hr, hcode, hother, Stmt.texts, Stmt.exprs,
        Stmt.textsAll]
    · simp [linkAll, Relocatable.link]
  | .whileLoop _ condition body => by
    simp only [lowerStmt]
    apply (linksIn_lowerExpr condition).bind
    intro r hr
    apply (linksIn_lowerStmts w₀ body).inScope.bind
    intro code hcode
    -- the labels of a loop count blocks, which linking leaves as they are
    refine linksIn_pure [.block none [.loop none (r.1 ++ ofPlain [.i32Eqz, .brIf 1] ++ code ++
      ofPlain [.br 0])]] ?_ fun _ => ?_
    · simp [Relocatable.textsAll, Relocatable.texts, hr, hcode, Stmt.texts, Stmt.exprs,
        Stmt.textsAll]
    · simp [loopCode, linkAll, Relocatable.link]
  | .print _ value => by
    simp only [lowerStmt]
    apply (linksIn_lowerExpr value).bind
    intro r hr
    refine linksIn_pure
      (r.1 ++ [.call (if r.2 = .string then printStringName else printName)]) ?_ fun w => ?_
    · simp [Relocatable.textsAll, Relocatable.texts, hr, Stmt.texts, Stmt.exprs]
    · -- the functions of the host have the same numbers in every linking
      have hcall : w.linking.callee (if r.2 = .string then printStringName else printName) =
          if r.2 = .string then printStringIndex else printIndex := by
        split <;> rfl
      simp [printCode, linkAll, Relocatable.link, hcall]
  | .expression _ value => by
    simp only [lowerStmt]
    apply (linksIn_lowerExpr value).bind
    intro r hr
    have hplain : (List.replicate r.2.width Instr.drop).all Instr.isPlain = true := by
      simp [Instr.isPlain]
    refine linksIn_pure (r.1 ++ ofPlain _ hplain) ?_ fun _ => by simp
    simp [hr, Stmt.texts, Stmt.exprs]
  | .block _ body => by
    simp only [lowerStmt]
    exact (linksIn_lowerStmts w₀ body).inScope

theorem linksIn_lowerStmts (w₀ : Site) : (stmts : List Stmt) →
    LinksIn w₀ linkAll (fun code => Relocatable.textsAll code = Stmt.textsAll stmts)
      fun w => lowerStmts w.context stmts
  | [] => by
    simp only [lowerStmts]
    exact linksIn_pure [] (by simp; rfl) fun _ => by simp
  | stmt :: stmts => by
    simp only [lowerStmts]
    apply (linksIn_lowerStmt w₀ stmt).bind
    intro code hcode
    apply (linksIn_lowerStmts w₀ stmts).bind
    intro rest hrest
    refine linksIn_pure (code ++ rest) ?_ fun _ => by simp
    rw [Relocatable.textsAll_append, hcode, hrest, Stmt.textsAll_cons]

end

end Stmt

end Lowering

/-! ### Functions

A declaration on its own, with the numbers and addresses left open. -/

namespace Wasm

/-- A function whose code is relocatable. -/
structure RelocatableFunction where
  name : String
  type : FuncType
  locals : List ValueType
  code : List Relocatable
  exported : Bool

/-- The function with numbers and addresses. -/
def RelocatableFunction.link (l : Linking) (r : RelocatableFunction) : Function :=
  { name := r.name
    type := r.type
    locals := r.locals
    body := linkAll l r.code
    exported := r.exported }

end Wasm

open Wasm (RelocatableFunction)

namespace Lowering

variable {g g' u : SymbolTable} {program : Program}

/-- The numbers and addresses in the code of a program. -/
def programLinking (program : Program) (strings : StringPool) : Linking :=
  linking (functionIndices program) (allocatorIndex program) strings

/-- What a declaration is lowered to, after others. -/
inductive LoweredTo (program : Program) (g : SymbolTable) : Stmt → Function → Prop
  | struct {location decl function u u'} (hu : SameOutside g u)
    (h : lowerStruct program decl.name u = .ok function u') :
    LoweredTo program g (.struct location decl) function
  | function {location header body function u u'} (hu : SameOutside g u)
    (h : lowerFunction program header body u = .ok function u') :
    LoweredTo program g (.function location header body) function

/-- A function was lowered in a table that looks the same from outside. -/
theorem LoweredTo.lowerFunction {location : Location} {header : FunctionHeader} {body : List Stmt}
    {function : Function} (h : LoweredTo program g (.function location header body) function) :
    ∃ u u', SameOutside g u ∧ Lowering.lowerFunction program header body u = .ok function u' := by
  cases h with
  | function hu h => exact ⟨_, _, hu, h⟩

/-- The constructor of a struct depends on its fields and on the number of the allocator. -/
theorem LoweredTo.constructor {location : Location} {decl : StructDecl} {function : Function}
    (h : LoweredTo program g (.struct location decl) function) :
    ∃ fields, g.struct? decl.name = some fields ∧
      function = Lowering.constructor (allocatorIndex program) decl.name fields := by
  cases h with
  | @struct _ _ _ u _ hu h =>
    have hsame : u.struct? decl.name = g.struct? decl.name := congrArg (·.struct? decl.name) hu
    rw [lowerStruct, hsame] at h
    split at h
    · cases h
    · rename_i fields hfields
      exact ⟨fields, hfields, (EStateM.Result.ok.inj h).1.symm⟩

/-- In every table that looks alike a declaration is lowered to the same relocatable function, whose
literals are those of the declaration. -/
structure RelocatesTo (g : SymbolTable) (stmt : Stmt) (r : RelocatableFunction) : Prop where
  texts : Relocatable.textsAll r.code = stmt.texts
  linked : ∀ program g' function, Alike g g' → LoweredTo program g' stmt function →
    function = r.link (programLinking program g'.strings)

section Declarations

variable {header : FunctionHeader} {source body : List Stmt} {signature : Signature}
  {params last : SymbolTable}

/-- Checking takes the same course in a table that looks alike. -/
theorem CheckedIn.transfer (h : CheckedIn g header source body signature params last)
    (halike : Alike g g') : ∃ params' last',
      CheckedIn g' header source body signature params' last' ∧ Alike params params' ∧
        Alike last last' := by
  obtain ⟨params', hparams', hparams⟩ :=
    transfers_checkParams _ _ _ halike.enterFunction _ _ h.checkedParams
  obtain ⟨last', hlast', hlast⟩ := transfers_checkStmts _ _ _ _ hparams _ _ h.checkedBody
  have hfound : g'.function? header.name = some signature := by
    rw [halike.function?, h.found]
  exact ⟨params', last', ⟨hfound, hparams', hlast'⟩, hparams, hlast⟩

/-- No literal is interned while parameters are defined. -/
theorem CheckedIn.params_strings (h : CheckedIn g header source body signature params last) :
    params.strings = g.strings :=
  (parameters_of_check h.checkedParams).sameGlobals.strings

/-- What lowering a checked function gives. -/
theorem CheckedIn.lowerFunction_eq_ok (h : CheckedIn g header source body signature params last)
    (hlength : signature.params.length = header.params.length) (hu : SameOutside g u)
    {function : Function} {u' : SymbolTable}
    (hlower : lowerFunction program header body u = .ok function u') :
    ∃ code s, lowerStmts (functionContext program last) body ⟨params, []⟩ = .ok code s ∧
      function =
        { name := header.name
          type := ⟨DataType.machineTypesAll signature.params, signature.result.machineTypes⟩
          locals := last.declared.flatMap (·.type.machineTypes) ++ s.scratch
          body := code ++ if signature.result.isNone then [] else [.unreachable]
          exported := header.exported || header.name = mainName } := by
  rw [h.lowerFunction_eq program hlength hu] at hlower
  split at hlower
  · cases hlower
  · rename_i code s hcode
    exact ⟨code, s, hcode, (EStateM.Result.ok.inj hlower).1.symm⟩

/-- The body of a function links as its statements do, at every site. -/
theorem CheckedIn.relocatesTo (h : CheckedIn g header source body signature params last)
    (hlength : signature.params.length = header.params.length) {location : Location}
    {function : Function}
    (hlowered : LoweredTo program g (.function location header body) function) :
    ∃ r, RelocatesTo g (.function location header body) r := by
  obtain ⟨u₀, u₀', hu₀, hlower₀⟩ := hlowered.lowerFunction
  obtain ⟨code₀, s₀, hcode₀, -⟩ := h.lowerFunction_eq_ok hlength hu₀ hlower₀
  obtain ⟨code, htexts, hall⟩ := linksIn_lowerStmts ⟨functionContext program last, g.strings⟩ body
    params [] code₀ s₀ h.params_strings hcode₀
  have hend : (if signature.result.isNone then [] else [Instr.unreachable]).all Instr.isPlain := by
    split <;> rfl
  refine ⟨⟨header.name,
    ⟨DataType.machineTypesAll signature.params, signature.result.machineTypes⟩,
    last.declared.flatMap (·.type.machineTypes) ++ s₀.scratch, code ++ ofPlain _ hend,
    header.exported || header.name = mainName⟩, texts_append_plain htexts hend, ?_⟩
  intro program' g' function' halike hlowered'
  obtain ⟨u', _, hu', hlower'⟩ := hlowered'.lowerFunction
  -- the function was checked in the other table as well, and led through tables that look alike
  obtain ⟨params', last', h', hparams, hlast⟩ := h.transfer halike
  obtain ⟨code', s', hcode', rfl⟩ := h'.lowerFunction_eq_ok hlength hu' hlower'
  obtain ⟨rfl, hscratch, -⟩ := hall ⟨functionContext program' last', g'.strings⟩ params'
    ⟨hlast.nextSlot, hparams, h'.params_strings⟩ code' s' hcode'
  rw [RelocatableFunction.link, Relocatable.linkAll_append, Relocatable.linkAll_ofPlain,
    hlast.declared, hscratch]
  rfl

theorem isPlain_storeFields (base i : Nat) (fields : List (String × DataType)) :
    (storeFields base i fields).all Instr.isPlain = true := by
  induction fields generalizing i with
  | nil => rfl
  | cons field fields ih =>
    rw [storeFields, List.all_append, ih]
    rfl

/-- The code of a constructor. -/
def constructorCode (fields : List (String × DataType)) : List Relocatable :=
  let base := (DataType.machineTypesAll (fields.map (·.2))).length
  ofPlain [.i32Const (.ofNat (DataType.structSize fields))] ++ .allocate ::
    (ofPlain [.localSet base] ++
      ofPlain (storeFields base 0 fields) (isPlain_storeFields base 0 fields) ++
      ofPlain [.localGet base])

/-- The only number in a constructor is that of the allocator. -/
theorem linkAll_constructorCode {l : Linking} (name : String)
    (fields : List (String × DataType)) :
    linkAll l (constructorCode fields) = (constructor l.allocator name fields).body := by
  simp [constructorCode, constructor, linkAll, Relocatable.link]

theorem textsAll_constructorCode (fields : List (String × DataType)) :
    Relocatable.textsAll (constructorCode fields) = [] := by
  simp [constructorCode, Relocatable.textsAll, Relocatable.texts]

/-- A constructor is the same relocatable function at every site. -/
theorem struct_relocatesTo {location : Location} {decl : StructDecl} {function : Function}
    (hlowered : LoweredTo program g (.struct location decl) function) :
    ∃ r, RelocatesTo g (.struct location decl) r := by
  obtain ⟨fields, hfields, -⟩ := hlowered.constructor
  refine ⟨⟨decl.name, ⟨DataType.machineTypesAll (fields.map (·.2)), [.i32]⟩, [.i32],
    constructorCode fields, false⟩, textsAll_constructorCode fields, ?_⟩
  intro program' g' function' halike hlowered'
  obtain ⟨fields', hfields', rfl⟩ := hlowered'.constructor
  rw [halike.struct?, hfields] at hfields'
  obtain rfl := Option.some.inj hfields'
  rw [RelocatableFunction.link, linkAll_constructorCode decl.name]
  rfl

/-- Every declaration of a checked program that can be lowered relocates. -/
theorem CheckedTopLevel.relocatesTo {stmts : List Stmt} (hregistered : Registered g stmts)
    {stmt stmt' : Stmt} (hmem : stmt ∈ stmts) (h : CheckedTopLevel g stmt stmt')
    {function : Function} (hlowered : LoweredTo program g stmt' function) :
    ∃ r, RelocatesTo g stmt' r := by
  cases h with
  | struct => exact struct_relocatesTo hlowered
  | function hchecked =>
    exact hchecked.relocatesTo (hregistered _ _ _ hmem _ hchecked.found) hlowered

end Declarations

/-! ### Checking in tables that look alike

Checking never looks at numbers or addresses either. -/

section Checking

/-- Checking a declaration of either kind takes the same course in a table that looks alike. -/
theorem CheckedTopLevel.transfer {stmt stmt' : Stmt} (h : CheckedTopLevel g stmt stmt')
    (halike : Alike g g') : CheckedTopLevel g' stmt stmt' := by
  cases h with
  | struct => exact .struct
  | function hchecked =>
    obtain ⟨params', last', hchecked', -, -⟩ := hchecked.transfer halike
    exact .function hchecked'

/-- What has been checked is checked again with the same result. -/
theorem CheckedTopLevel.checkTopLevel_eq {stmt stmt' : Stmt} (h : CheckedTopLevel g stmt stmt')
    (hu : SameOutside g u) :
    ∃ u', checkTopLevel stmt u = .ok stmt' u' ∧ SameOutside g u' := by
  cases h with
  | struct => exact ⟨u, rfl, hu⟩
  | @function location header source body signature params last hchecked =>
    -- nothing outside the scopes differs, so the body is checked alike
    have hcheckedIn : CheckedIn u header source body signature params last :=
      SameOutside.checkedIn hu.symm hchecked
    refine ⟨last.exitFunction, ?_, hchecked.exit⟩
    have hfunction : checkFunction location header source u = .ok body last.exitFunction := by
      unfold checkFunction
      refine EStateM.bind_eq_ok_iff.mpr ⟨signature, u, query_eq_ok_iff.mpr ⟨?_, rfl⟩, ?_⟩
      · rw [hcheckedIn.found]
      · refine EStateM.bind_eq_ok_iff.mpr ⟨(), u.enterFunction, rfl, ?_⟩
        refine EStateM.bind_eq_ok_iff.mpr ⟨(), params, hcheckedIn.checkedParams, ?_⟩
        exact closing_eq_ok_iff.mpr ⟨last, hcheckedIn.checkedBody, rfl⟩
    rw [checkTopLevel, EStateM.bind_of_ok hfunction]
    rfl

/-- The declarations that have been checked are checked again with the same results. -/
theorem mapM_checkTopLevel_eq {stmts stmts' : List Stmt}
    (h : List.Forall₂ (CheckedTopLevel g) stmts stmts') (hu : SameOutside g u) :
    ∃ u', stmts.mapM checkTopLevel u = .ok stmts' u' := by
  induction h generalizing u with
  | nil => exact ⟨u, rfl⟩
  | cons hstmt _ ih =>
    obtain ⟨u₁, hfirst, hu₁⟩ := hstmt.checkTopLevel_eq hu
    obtain ⟨u', hothers⟩ := ih hu₁
    refine ⟨u', ?_⟩
    rw [List.mapM_cons, EStateM.bind_of_ok hfirst, EStateM.bind_of_ok hothers]
    rfl

/-- The statement with the types that checking fills in. -/
def typed (g : SymbolTable) (stmt : Stmt) : Stmt :=
  match checkTopLevel stmt g with
  | .ok stmt' _ => stmt'
  | .error .. => stmt

/-- What checking gives is determined by the table, declaration by declaration. -/
theorem eq_map_typed {stmts stmts' : List Stmt}
    (h : List.Forall₂ (CheckedTopLevel g) stmts stmts') : stmts' = stmts.map (typed g) := by
  induction h with
  | nil => rfl
  | cons hstmt _ ih =>
    obtain ⟨u', hcheck, -⟩ := hstmt.checkTopLevel_eq (show SameOutside g g from rfl)
    rw [List.map_cons, ← ih, typed, hcheck]

end Checking

/-! ### Programs

The phases of the compiler after parsing. -/

section Programs

variable {stmts stmts' : List Stmt}

theorem LoweredTo.name {program : Program} {stmt : Stmt} {function : Function}
    (h : LoweredTo program g stmt function) : declaredName? stmt = some function.name := by
  cases h with
  | struct hu h =>
    rw [lowerStruct] at h
    split at h
    · cases h
    · obtain ⟨rfl, -⟩ := EStateM.Result.ok.inj h
      rfl
  | function hu h =>
    rw [Lowering.lowerFunction] at h
    split at h
    · cases h
    · split at h
      · cases h
      · obtain ⟨rfl, -⟩ := EStateM.Result.ok.inj h
        rfl

/-- The names of all functions are those that were declared. -/
theorem names_of_lowered {program : Program} {stmts : List Stmt} {functions : List Function}
    (h : List.Forall₂ (LoweredTo program g) stmts functions) :
    stmts.filterMap declaredName? = functions.map (·.name) := by
  induction h with
  | nil => rfl
  | cons hstmt _ ih => rw [List.filterMap_cons_some hstmt.name, ih, List.map_cons]

/-- Each declaration is lowered in a table that looks as at the beginning. -/
theorem lowerDeclarations_eq_ok (h : List.Forall₂ (CheckedTopLevel g) stmts stmts')
    (hregistered : Registered g stmts) (hu : SameOutside g u) {functions : List Function}
    {u' : SymbolTable} (hlower : lowerDeclarations program stmts' u = .ok functions u') :
    List.Forall₂ (LoweredTo program g) stmts' functions ∧ SameOutside g u' := by
  -- each declaration leaves the table as it was outside of it, so the next begins in one like `g`
  induction h generalizing u functions with
  | nil =>
    obtain ⟨rfl, rfl⟩ := EStateM.pure_eq_ok_iff.mp hlower
    exact ⟨.nil, hu⟩
  | @cons _ _ _ rest hstmt _ ih =>
    have hrest {u₁ : SymbolTable} {others : List Function} (hu₁ : SameOutside g u₁)
        (h : lowerDeclarations program rest u₁ = .ok others u') :=
      ih (fun l d s hmem => hregistered l d s (List.mem_cons_of_mem _ hmem)) hu₁ h
    cases hstmt with
    | @struct _ decl =>
      rw [lowerDeclarations] at hlower
      obtain ⟨function, u₁, hfirst, hlower⟩ := EStateM.bind_eq_ok_iff.mp hlower
      obtain ⟨others, u₂, hothers, hlower⟩ := EStateM.bind_eq_ok_iff.mp hlower
      obtain ⟨rfl, rfl⟩ := EStateM.pure_eq_ok_iff.mp hlower
      have hu₁ : Resumes g (lowerStruct program decl.name u) := resumes_lowerStruct decl.name hu
      rw [hfirst] at hu₁
      obtain ⟨hlowered, hu₂⟩ := hrest hu₁ hothers
      exact ⟨.cons (.struct hu hfirst) hlowered, hu₂⟩
    | function hchecked =>
      have hlength := hregistered _ _ _ List.mem_cons_self _ hchecked.found
      rw [lowerDeclarations] at hlower
      obtain ⟨function, u₁, hfirst, hlower⟩ := EStateM.bind_eq_ok_iff.mp hlower
      obtain ⟨others, u₂, hothers, hlower⟩ := EStateM.bind_eq_ok_iff.mp hlower
      obtain ⟨rfl, rfl⟩ := EStateM.pure_eq_ok_iff.mp hlower
      have hu₁ : Resumes g (lowerFunction program _ _ u) := hchecked.resumes hlength hu
      rw [hfirst] at hu₁
      obtain ⟨hlowered, hu₂⟩ := hrest hu₁ hothers
      exact ⟨.cons (.function hu hfirst) hlowered, hu₂⟩

/-- An error of another phase is passed on, so success means the same. -/
theorem semantic_eq_ok_iff {α : Type} {action : SymbolM α} {a : α} {t t' : SymbolTable} :
    semantic action t = .ok a t' ↔ action t = .ok a t' := by
  rw [semantic]
  cases action t with
  | ok => simp
  | error => simp

theorem exists_relocatesTo (hregistered : Registered g stmts)
    (hchecked : List.Forall₂ (CheckedTopLevel g) stmts stmts') {functions : List Function}
    (hlowered : List.Forall₂ (LoweredTo program g) stmts' functions) :
    ∃ rs, List.Forall₂ (RelocatesTo g) stmts' rs := by
  induction hchecked generalizing functions with
  | nil => exact ⟨[], .nil⟩
  | cons hstmt _ ih =>
    cases hlowered with
    | cons hfirst hothers =>
      obtain ⟨r, hr⟩ := hstmt.relocatesTo hregistered List.mem_cons_self hfirst
      obtain ⟨rs, hrs⟩ :=
        ih (fun l d s hmem => hregistered l d s (List.mem_cons_of_mem _ hmem)) hothers
      exact ⟨r :: rs, .cons hr hrs⟩

/-- What declarations are lowered to is their relocatable functions, linked. -/
theorem functions_eq_map {rs : List RelocatableFunction} {functions : List Function}
    (hrs : List.Forall₂ (RelocatesTo g) stmts rs) (halike : Alike g g')
    (h : List.Forall₂ (LoweredTo program g') stmts functions) :
    functions = rs.map (·.link (programLinking program g'.strings)) := by
  induction hrs generalizing functions with
  | nil =>
    cases h
    rfl
  | cons hr _ ih =>
    cases h with
    | cons hfirst hothers =>
      rw [List.map_cons, ← ih hothers, ← hr.linked program g' _ halike hfirst]

/-- How a descriptor came to be: the table `g` knows the declarations, and each of them was checked
and lowered in tables that look the same from outside of it. -/
structure Generated (program : Program) (t g : SymbolTable) (checked : Program)
    (functions : List Function) (d : Descriptor) : Prop where
  declares : SymbolTable.declare program t = .ok () g
  checks : List.Forall₂ (CheckedTopLevel g) program.statements checked.statements
  lowers : List.Forall₂ (LoweredTo checked g) checked.statements functions
  descriptor : d =
    { imports := hostImports
      functions := functions ++ [allocator]
      segments := g.strings.segments
      heapBase := g.heapBase
      memoryPages := Wasm.pagesThrough g.heapBase
      exportsMemory := g.exportsMemory }

/-- The program has a list of relocatable functions, one for each declaration. -/
theorem Generated.relocatable {checked : Program} {t : SymbolTable} {functions : List Function}
    {d : Descriptor} (h : Generated program t g checked functions d) :
    ∃ rs, List.Forall₂ (RelocatesTo g) checked.statements rs :=
  exists_relocatesTo (registered_of_declare h.declares) h.checks h.lowers

/-- The phases of `generate`, each with what it leaves. -/
theorem generated_of_generate {t t' : SymbolTable} {d : Descriptor}
    (h : generate program t = .ok d t') :
    ∃ g checked functions, Generated program t g checked functions d := by
  obtain ⟨_, g, hdeclare, h⟩ := EStateM.bind_eq_ok_iff.mp h
  obtain ⟨checked, g₁, hcheck, h⟩ := EStateM.bind_eq_ok_iff.mp h
  obtain ⟨functions, u, hlower, hend⟩ := EStateM.bind_eq_ok_iff.mp h
  have hdeclare := semantic_eq_ok_iff.mp hdeclare
  have hcheck := semantic_eq_ok_iff.mp hcheck
  obtain ⟨stmts', g₂, hstmts, hpure⟩ := EStateM.bind_eq_ok_iff.mp hcheck
  obtain ⟨rfl, rfl⟩ := EStateM.pure_eq_ok_iff.mp hpure
  obtain ⟨hpairs, hg₂⟩ := checkTopLevels_eq_ok hstmts (show SameOutside g g from rfl)
  obtain ⟨hlowered, hu⟩ :=
    lowerDeclarations_eq_ok hpairs (registered_of_declare hdeclare) hg₂ hlower
  refine ⟨g, ⟨stmts'⟩, functions, hdeclare, hpairs, hlowered, ?_⟩
  -- the descriptor is put together from the table after all of them
  have hstrings : u.strings = g.strings := congrArg (·.strings) hu
  have hexports : u.exportsMemory = g.exportsMemory := congrArg (·.exportsMemory) hu
  split at hend
  · obtain ⟨t₁, u₁, hget, hend⟩ := EStateM.bind_eq_ok_iff.mp hend
    obtain ⟨rfl, rfl⟩ := EStateM.get_eq_ok_iff.mp hget
    obtain ⟨rfl, -⟩ := EStateM.pure_eq_ok_iff.mp hend
    simp only [SymbolTable.heapBase, hstrings, hexports]
  · cases hend

end Programs

end Lowering

end WasmCompiler
