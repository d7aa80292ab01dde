import WasmCompiler.Proofs.Lowering.Relocation
import WasmCompiler.Proofs.Lowering.Sites

/-!
# Outcomes of lowering

What lowering a checked statement comes to is said once, for every statement
(`yieldsIn_lowerStmt`): it leads to the table that checking led to, with code that has the calls of
the statement; or it stops, and if all literals of the statement are in the string pool then not
because one is missing. `CheckedTopLevel.callsAt` and `isRuledOut_of_generate` say it of the
declarations of a program.

`yields_lowerExpr` is the same for expressions. Both are inductions over the tree, on rules for
single steps: `Yields` for those that hand out scratch locals, `YieldsIn` for those that change the
table as well.
-/

namespace WasmCompiler

open Wasm (Descriptor Function Instr ValueType)

/-- Whether a failed invariant is one that parsing or numbering rules out: that a literal is not in
the string pool, or that the allocator is not the last function. -/
def LoweringError.isRuledOut : LoweringError → Bool
  | .invariant (.unknownString _) _ | .invariant .allocatorPosition _ => true
  | _ => false

namespace Lowering

/-! ### Steps of lowering an expression

What each step gives, and which errors it may end with. -/

section Yields

variable {α β : Type} {P : α → Prop} {Q : β → Prop}

/-- A step gives what `P` asks for, or it fails, and not because of what is ruled out. -/
def Yields (x : ScratchM α) (P : α → Prop) : Prop :=
  ∀ s, match x s with
    | .ok (a, _) => P a
    | .error e => e.isRuledOut = false

theorem yields_pure {a : α} (h : P a) : Yields (pure a) P :=
  fun _ => h

theorem yields_throw {e : LoweringError} (h : e.isRuledOut = false) : Yields (throw e) P :=
  fun _ => h

/-- What holds of the first result is known in the second step. -/
theorem Yields.bind {x : ScratchM α} {k : α → ScratchM β} (hx : Yields x P)
    (hk : ∀ a, P a → Yields (k a) Q) : Yields (x >>= k) Q := by
  intro s
  have hs := hx s
  cases hrun : x s with
  | ok p =>
    rw [hrun] at hs
    rw [ScratchM.bind_of_ok hrun]
    exact hk p.1 hs p.2
  | error e =>
    rw [hrun] at hs
    rwa [ScratchM.bind_of_error hrun]

theorem yields_integerWord (location : Location) (value : Int) :
    Yields (integerWord location value) fun _ => True := by
  unfold integerWord
  split
  · exact yields_pure trivial
  · exact yields_throw rfl

/-- Only a literal is the index of a tuple, and a literal calls nothing. -/
theorem yields_elementPosition (elements : List DataType) (index : Expr) :
    Yields (elementPosition elements index) fun _ => index.callSites = [] := by
  unfold elementPosition Expr.elementIndex?
  cases index with
  | integer =>
    split
    · exact yields_pure rfl
    · exact yields_throw rfl
  | _ => exact yields_throw rfl

/-- Only a name is a tuple variable, and a name calls nothing. -/
theorem yields_tupleVariable? (c : LoweringContext) (base : Expr) :
    Yields (tupleVariable? c base) fun found => found.isSome → base.callSites = [] := by
  cases base with
  | identifier location name =>
    rw [tupleVariable?]
    split
    · exact yields_throw rfl
    · split
      · exact yields_pure fun _ => rfl
      · exact yields_pure fun hsome => by cases hsome
  | _ => exact yields_pure fun hsome => by cases hsome

theorem yields_fieldOf (base : DataType) (name : String) (location : Location) :
    Yields (fieldOf base name location) fun _ => True := by
  unfold fieldOf
  split
  · exact yields_pure trivial
  · exact yields_throw rfl

theorem yields_callResult (c : LoweringContext) (location : Location) (callee : String) :
    Yields (callResult c location callee) fun _ => True := by
  unfold callResult
  split
  · exact yields_pure trivial
  · exact yields_throw rfl

/-- If the name has a number then this is the one that the call gets. -/
theorem yields_calleeIndex (c : LoweringContext) (location : Location) (callee : String) :
    Yields (calleeIndex c location callee)
      ((CallSite.named callee).Calls (fun name k => c.indices.lookup name = some k)
        c.allocator) := by
  unfold calleeIndex
  split
  · rename_i hprint
    exact yields_pure (hprint ▸ .print)
  · split
    · rename_i hstring
      exact yields_pure (hstring ▸ .printString)
    · split
      · rename_i index hindex
        exact yields_pure (.declared hindex)
      · exact yields_throw rfl

theorem yields_allocScratch (c : LoweringContext) (type : ValueType) :
    Yields (allocScratch c type) fun _ => True :=
  fun _ => trivial

theorem yields_allocScratches (c : LoweringContext) (types : List ValueType) :
    Yields (allocScratches c types) fun _ => True := by
  induction types with
  | nil => exact yields_pure trivial
  | cons type types ih =>
    exact (yields_allocScratch c type).bind fun _ _ => ih.bind fun _ _ => yields_pure trivial

theorem yields_spillTuple (c : LoweringContext) (elements : List DataType) (i : Nat) :
    Yields (spillTuple c elements i) fun code => code.all Instr.isPlain = true := by
  refine (yields_allocScratches c _).bind fun temps _ => yields_pure ?_
  rw [List.all_append, isPlain_map (fun _ => rfl), isPlain_map (fun _ => rfl)]
  rfl

end Yields

/-! ### Expressions

The code of an expression calls what the expression calls. -/

section Expr

/-- A string pool has some texts. -/
def Knows (pool : StringPool) (texts : List String) : Prop :=
  ∀ text ∈ texts, (pool.offset? text).isSome

/-- Some texts and some others are in the pool if all of them are. -/
theorem knows_append_iff {pool : StringPool} {texts texts' : List String} :
    Knows pool (texts ++ texts') ↔ Knows pool texts ∧ Knows pool texts' :=
  List.forall_mem_append

/-- Lowering an expression gives code with the calls of the expression. -/
abbrev YieldsExpr (c : LoweringContext) (e : Expr) : Prop :=
  Yields (lowerExpr c e) fun l => CallsAt c.indices c.allocator e.callSites l.code

variable {c : LoweringContext}

/-- The left operand is evaluated first, and the operator calls nothing. -/
theorem callsAt_arithmeticCode {op : BinaryOp} {l r : Lowered} {sites sites' : List CallSite}
    (hl : CallsAt c.indices c.allocator sites l.code)
    (hr : CallsAt c.indices c.allocator sites' r.code) :
    CallsAt c.indices c.allocator (sites ++ sites') (arithmeticCode op l r) := by
  have hconverted {l : Lowered} {sites : List CallSite} (float : Bool)
      (h : CallsAt c.indices c.allocator sites l.code) :
      CallsAt c.indices c.allocator sites (converted float l) := by
    unfold converted
    split
    · exact h.append_plain rfl
    · exact h
  exact ((hconverted _ hl).append (hconverted _ hr)).append_plain (isPlain_operatorInstr? op _)

/-- Both operands, and then the instruction for their types. -/
theorem yields_operator {op : BinaryOp} {left right : Expr} (hleft : YieldsExpr c left)
    (hright : YieldsExpr c right) :
    Yields (do
        let l ← lowerExpr c left
        let r ← lowerExpr c right
        match op.result? l.type r.type with
        | some type => return ⟨arithmeticCode op l r, type⟩
        | none => violated (.uncheckedOperands l.type r.type) left.location)
      fun l : Lowered =>
        CallsAt c.indices c.allocator (left.callSites ++ right.callSites) l.code := by
  refine hleft.bind fun l hl => hright.bind fun r hr => ?_
  split
  · exact yields_pure (callsAt_arithmeticCode hl hr)
  · exact yields_throw rfl

/-- The base and the index, and then the load; for a tuple variable there is no base to evaluate. -/
theorem yields_index {location : Location} {base index : Expr} (hbase : YieldsExpr c base)
    (hindex : YieldsExpr c index) : YieldsExpr c (.index location base index) := by
  simp only [YieldsExpr, lowerExpr, Expr.callSites]
  refine (yields_tupleVariable? c base).bind fun found hfound => ?_
  split
  · -- the slots of a tuple in a variable are read directly
    rename_i var elements
    refine (yields_elementPosition elements index).bind fun i hposition => yields_pure ?_
    rw [hfound rfl, hposition]
    exact callsAt_plain (isPlain_getSlots _ _)
  · refine hbase.bind fun b hb => ?_
    split
    · refine hindex.bind fun i hi => yields_pure ?_
      exact (hb.append hi).append_plain rfl
    · rename_i elements _
      refine (yields_elementPosition elements index).bind fun i hposition => ?_
      refine (yields_spillTuple c elements i).bind fun spill hspill => yields_pure ?_
      rw [hposition, List.append_nil]
      exact hb.append_plain hspill
    · exact yields_throw rfl

mutual

/-- By induction over the expression, whose calls come in the order of their evaluation. -/
theorem yields_lowerExpr (c : LoweringContext) : (e : Expr) →
    Knows c.symbols.strings e.texts → YieldsExpr c e
  | .integer location value, _ => by
    simp only [YieldsExpr, lowerExpr]
    exact (yields_integerWord location value).bind fun _ _ => yields_pure (callsAt_plain rfl)
  | .float .., _ => by
    simp only [YieldsExpr, lowerExpr]
    exact yields_pure (callsAt_plain rfl)
  | .string location text, h => by
    simp only [YieldsExpr, lowerExpr]
    -- this is the only place where a literal could be missed
    obtain ⟨offset, hoffset⟩ := Option.isSome_iff_exists.mp (h text List.mem_cons_self)
    rw [SymbolTable.stringOffset?, hoffset]
    exact yields_pure (callsAt_plain rfl)
  | .identifier location name, _ => by
    simp only [YieldsExpr, lowerExpr]
    split
    · exact yields_pure (callsAt_plain (isPlain_getSlots _ _))
    · exact yields_throw rfl
  | .unary _ .not _, _ => by
    simp only [YieldsExpr, lowerExpr]
    exact yields_throw rfl
  | .unary _ .negate operand, h => by
    simp only [YieldsExpr, lowerExpr]
    refine (yields_lowerExpr c operand h).bind fun l hl => yields_pure ?_
    exact hl.append_plain (isPlain_negateCode l.type)
  | .binary _ .and left right, h => by
    rw [Expr.texts_binary, knows_append_iff] at h
    simp only [YieldsExpr, lowerExpr]
    refine (yields_lowerExpr c left h.1).bind fun l hl => ?_
    refine (yields_lowerExpr c right h.2).bind fun r hr => yields_pure ?_
    refine (hl.append hr).of_eq ?_
    simp [andCode, normalized, Instr.callsAll, Instr.calls]
  | .binary _ .or left right, h => by
    rw [Expr.texts_binary, knows_append_iff] at h
    simp only [YieldsExpr, lowerExpr]
    refine (yields_lowerExpr c left h.1).bind fun l hl => ?_
    refine (yields_lowerExpr c right h.2).bind fun r hr => yields_pure ?_
    refine (hl.append hr).of_eq ?_
    simp [orCode, normalized, Instr.callsAll, Instr.calls]
  | .binary _ .add left right, h | .binary _ .sub left right, h
  | .binary _ .mul left right, h | .binary _ .div left right, h
  | .binary _ .eq left right, h | .binary _ .ne left right, h
  | .binary _ .lt left right, h | .binary _ .gt left right, h
  | .binary _ .le left right, h | .binary _ .ge left right, h => by
    rw [Expr.texts_binary, knows_append_iff] at h
    simp only [YieldsExpr, lowerExpr]
    exact yields_operator (yields_lowerExpr c left h.1) (yields_lowerExpr c right h.2)
  | .call location callee args, h => by
    simp only [YieldsExpr, lowerExpr]
    refine (yields_lowerArgs c args h).bind fun code hcode => ?_
    refine (yields_calleeIndex c location callee).bind fun index hindex => ?_
    refine (yields_callResult c location callee).bind fun type _ => yields_pure ?_
    exact hcode.append_call hindex
  | .member _ base name, h => by
    simp only [YieldsExpr, lowerExpr]
    refine (yields_lowerExpr c base h).bind fun b hb => ?_
    exact (yields_fieldOf b.type name base.location).bind fun _ _ =>
      yields_pure (hb.append_plain rfl)
  | .index location base index, h => by
    rw [Expr.texts_index, knows_append_iff] at h
    exact yields_index (yields_lowerExpr c base h.1) (yields_lowerExpr c index h.2)
  | .array _ items, h => by
    simp only [YieldsExpr, lowerExpr]
    refine (yields_allocScratch c .i32).bind fun base _ => ?_
    refine (yields_lowerItems c base 1 .i32 items h).bind fun result hcode => yields_pure ?_
    -- the block is reserved before the items are evaluated
    have hheader : CallsAt c.indices c.allocator [.allocation] (arrayHeader c base items.length) :=
      .cons .allocation .nil
    exact (hheader.append hcode).append_plain rfl
  | .tuple _ items, h => by
    simp only [YieldsExpr, lowerExpr]
    exact (yields_lowerElements c items h).bind fun _ hcode => yields_pure hcode

theorem yields_lowerArgs (c : LoweringContext) : (args : List Expr) →
    Knows c.symbols.strings (Expr.textsAll args) →
      Yields (lowerArgs c args) (CallsAt c.indices c.allocator (Expr.callSitesAll args))
  | [], _ => by
    simp only [lowerArgs]
    exact yields_pure (callsAt_plain rfl)
  | arg :: args, h => by
    rw [Expr.textsAll_cons, knows_append_iff] at h
    simp only [lowerArgs]
    refine (yields_lowerExpr c arg h.1).bind fun a ha => ?_
    exact (yields_lowerArgs c args h.2).bind fun code hcode => yields_pure (ha.append hcode)

theorem yields_lowerElements (c : LoweringContext) : (items : List Expr) →
    Knows c.symbols.strings (Expr.textsAll items) →
      Yields (lowerElements c items) fun result =>
        CallsAt c.indices c.allocator (Expr.callSitesAll items) result.1
  | [], _ => by
    simp only [lowerElements]
    exact yields_pure (callsAt_plain rfl)
  | item :: items, h => by
    rw [Expr.textsAll_cons, knows_append_iff] at h
    simp only [lowerElements]
    refine (yields_lowerExpr c item h.1).bind fun l hl => ?_
    exact (yields_lowerElements c items h.2).bind fun _ hcode => yields_pure (hl.append hcode)

theorem yields_lowerItems (c : LoweringContext) (base cell : Nat) (element : DataType) :
    (items : List Expr) → Knows c.symbols.strings (Expr.textsAll items) →
      Yields (lowerItems c base cell element items) fun result =>
        CallsAt c.indices c.allocator (Expr.callSitesAll items) result.1
  | [], _ => by
    simp only [lowerItems]
    exact yields_pure (callsAt_plain rfl)
  | item :: items, h => by
    rw [Expr.textsAll_cons, knows_append_iff] at h
    simp only [lowerItems]
    refine (yields_lowerExpr c item h.1).bind fun l hl => ?_
    refine (yields_lowerItems c base (cell + 1) l.type items h.2).bind fun _ hcode => ?_
    refine yields_pure ((hl.append hcode).of_eq ?_)
    simp [Instr.callsAll, Instr.calls, storeCell]

end

end Expr

/-! ### Steps of lowering a statement

The same with the symbol table, which a step may change. -/

section YieldsIn

variable {α β : Type} {t u t' : SymbolTable} {P : α → Prop} {Q : β → Prop}

/-- A step leads from a table to another and gives what `P` asks for, or it fails, and not because
of what is ruled out. -/
def YieldsIn (t : SymbolTable) (x : LoweringM α) (P : α → Prop) (t' : SymbolTable) : Prop :=
  ∀ s, match x ⟨t, s⟩ with
    | .ok a s' => s'.symbols = t' ∧ P a
    | .error e _ => e.isRuledOut = false

theorem yieldsIn_pure {a : α} (h : P a) : YieldsIn t (pure a) P t :=
  fun _ => ⟨rfl, h⟩

theorem yieldsIn_throw {e : LoweringError} (h : e.isRuledOut = false) :
    YieldsIn t (throw e) P t' :=
  fun _ => h

/-- The second step begins in the table in which the first one ends. -/
theorem YieldsIn.bind {x : LoweringM α} {k : α → LoweringM β} (hx : YieldsIn t x P u)
    (hk : ∀ a, P a → YieldsIn u (k a) Q t') : YieldsIn t (x >>= k) Q t' := by
  intro s
  have hs := hx s
  cases hrun : x ⟨t, s⟩ with
  | ok a s' =>
    rw [hrun] at hs
    rw [EStateM.bind_of_ok hrun]
    obtain ⟨t₁, scratch⟩ := s'
    obtain ⟨rfl, ha⟩ := hs
    exact hk a ha scratch
  | error e s' =>
    rw [hrun] at hs
    rwa [EStateM.bind_of_error hrun]

/-- What an expression is lowered to, which is also what lowering it gives in this table. -/
theorem yieldsIn_expr {f : FunctionContext} {lower : LoweringContext → ScratchM α}
    (h : Yields (lower (f.withSymbols t)) P) :
    YieldsIn t (expr f lower)
      (fun a => P a ∧ ∃ s s', lower (f.withSymbols t) s = .ok (a, s')) t := by
  intro s
  have hs := h s
  cases hrun : lower (f.withSymbols t) s with
  | ok p =>
    rw [hrun] at hs
    simp only [expr, hrun]
    exact ⟨trivial, hs, s, p.2, hrun⟩
  | error e =>
    rw [hrun] at hs
    simp only [expr, hrun]
    exact hs

theorem YieldsIn.inScope {x : LoweringM α} (h : YieldsIn t.enterScope x P u) :
    YieldsIn t (inScope x) P u.exitScope := by
  intro s
  have hs := h s
  unfold Lowering.inScope
  rw [withTable]
  cases hrun : x ⟨t.enterScope, s⟩ with
  | ok a s' =>
    rw [hrun] at hs
    exact ⟨congrArg SymbolTable.exitScope hs.1, hs.2⟩
  | error e s' =>
    rw [hrun] at hs
    exact hs

/-- The variables are those that checking declared. -/
theorem yieldsIn_defineBindings {bindings : List Binding} {vars : List Variable}
    (h : Declares t bindings vars t') (location : Location) :
    YieldsIn t (defineBindings location bindings) (fun vars' => vars' = vars) t' := by
  intro s
  rw [defineBindings_eq_ok h location s]
  exact ⟨rfl, rfl⟩

end YieldsIn

/-! ### Statements

Each form of statement, and lists of them. -/

section Stmt

variable {f : FunctionContext} {t t' u : SymbolTable} {pool : StringPool}

/-- Lowering an expression in a table gives code with the calls of the expression. -/
theorem yieldsIn_lowerExpr (f : FunctionContext) {e : Expr} (h : Knows t.strings e.texts) :
    YieldsIn t (expr f (lowerExpr · e))
      (fun l => CallsAt f.indices f.allocator e.callSites l.code ∧
        ∃ s s', lowerExpr (f.withSymbols t) e s = .ok (l, s')) t :=
  yieldsIn_expr (yields_lowerExpr (f.withSymbols t) e h)

/-- An expression, and plain code. -/
theorem yieldsIn_followed (f : FunctionContext) {e : Expr} (h : Knows t.strings e.texts)
    {rest : Lowered → List Instr} (hrest : ∀ l, (rest l).all Instr.isPlain = true) :
    YieldsIn t (do
        let l ← expr f (lowerExpr · e)
        return l.code ++ rest l)
      (CallsAt f.indices f.allocator e.callSites) t :=
  (yieldsIn_lowerExpr f h).bind fun l hl => yieldsIn_pure (hl.1.append_plain (hrest l))

/-- The calls of a declaration are those of its value. -/
theorem yieldsIn_lowerDeclaration (f : FunctionContext) {location : Location}
    {bindings bindings' : List Binding} {value : Option Expr}
    (hcheck : checkDeclaration bindings value t = .ok bindings' t')
    (h : Knows t.strings (value.toList.flatMap Expr.texts)) :
    YieldsIn t (lowerDeclaration f location bindings' value)
      (CallsAt f.indices f.allocator (value.toList.flatMap Expr.callSites)) t' := by
  obtain ⟨initial, types, -, htypes, hdefine⟩ := checkDeclaration_eq_ok hcheck
  obtain ⟨vars, hvars, -⟩ := declares_of_check htypes.length_eq hdefine
  cases value with
  | none =>
    refine (yieldsIn_defineBindings hvars location).bind fun vars _ => yieldsIn_pure ?_
    refine callsAt_plain ?_
    rw [List.all_flatMap]
    exact List.all_eq_true.mpr fun var _ => isPlain_zeroSlots var
  | some e =>
    simp only [Option.toList_some, List.flatMap_singleton] at h ⊢
    refine (yieldsIn_lowerExpr f h).bind fun l hl => ?_
    refine (yieldsIn_defineBindings hvars location).bind fun vars _ => ?_
    -- there is no variable for the value, and lowering stops
    cases vars with
    | nil => exact yieldsIn_throw rfl
    | cons first others =>
      exact yieldsIn_pure (hl.1.append_plain (isPlain_initialCode first others))

/-- The target is evaluated before the value. -/
theorem yieldsIn_lowerAssignment (f : FunctionContext) {target value : Expr}
    (h : Knows t.strings (target.texts ++ value.texts)) :
    YieldsIn t (lowerAssignment f value target)
      (CallsAt f.indices f.allocator (target.callSites ++ value.callSites)) t := by
  rw [knows_append_iff] at h
  cases target with
  | identifier location name =>
    have hget : YieldsIn t (get : LoweringM LoweringState) (fun s => s.symbols = t) t :=
      fun _ => ⟨rfl, rfl⟩
    rw [lowerAssignment]
    refine hget.bind fun s hs => ?_
    rw [hs]
    split
    · exact yieldsIn_throw rfl
    · exact yieldsIn_followed f h.2 fun _ => isPlain_setSlots _ _
  | member location base name =>
    rw [lowerAssignment]
    refine (yieldsIn_lowerExpr f (e := base) h.1).bind fun b hb => ?_
    refine (yieldsIn_expr (yields_fieldOf b.type name base.location)).bind fun p _ => ?_
    refine (yieldsIn_lowerExpr f h.2).bind fun l hl => yieldsIn_pure ?_
    exact (hb.1.append hl.1).append_plain rfl
  | _ => exact yieldsIn_throw rfl

/-- A condition with a body in a scope of its own, where what is put around the two calls
nothing. -/
theorem yieldsIn_guarded {f : FunctionContext} {condition : Expr} {stmts : List Stmt}
    {sites : List CallSite}
    (h : YieldsIn t.enterScope (lowerStmts f stmts) (CallsAt f.indices f.allocator sites) u)
    (hcondition : Knows t.strings condition.texts) {around : Lowered → List Instr → List Instr}
    (haround : ∀ l code, Instr.callsAll (around l code) = Instr.callsAll (l.code ++ code)) :
    YieldsIn t
      (do
        let l ← expr f (lowerExpr · condition)
        let code ← inScope (lowerStmts f stmts)
        return around l code)
      (CallsAt f.indices f.allocator (condition.callSites ++ sites)) u.exitScope := by
  refine (yieldsIn_lowerExpr f hcondition).bind fun l hl => ?_
  refine h.inScope.bind fun code hcode => yieldsIn_pure ?_
  exact (hl.1.append hcode).of_eq (haround l code)

mutual

/-- Lowering a checked statement leads to the table that checking led to, and gives code with the
calls of the statement. -/
theorem yieldsIn_lowerStmt (f : FunctionContext) {result : DataType} : (stmt : Stmt) →
    {stmt' : Stmt} → {t t' : SymbolTable} → checkStmt result stmt t = .ok stmt' t' →
      Knows t.strings stmt.texts →
      YieldsIn t (lowerStmt f stmt')
        (CallsAt f.indices f.allocator (stmt.callSites result t)) t'
  | .declare .., _, _, _, hcheck, h => by
    obtain ⟨bindings', hbindings, rfl⟩ := checkStmt_declare_iff.mp hcheck
    rw [lowerStmt, Stmt.callSites]
    exact yieldsIn_lowerDeclaration f hbindings h
  | .function .., _, _, _, hcheck, _ | .struct .., _, _, _, hcheck, _ => by
    rw [checkStmt] at hcheck
    cases hcheck
  | .ret _ none, _, _, _, hcheck, _ => by
    obtain ⟨rfl, rfl⟩ := checkStmt_of_isFlat rfl hcheck
    rw [lowerStmt, Stmt.callSites]
    exact yieldsIn_pure (callsAt_plain rfl)
  | .ret _ (some value), _, _, _, hcheck, h => by
    obtain ⟨rfl, rfl⟩ := checkStmt_of_isFlat rfl hcheck
    simp only [Stmt.texts, Stmt.exprs, Option.toList_some, List.flatMap_singleton] at h
    simp only [lowerStmt, Stmt.callSites, Option.toList_some, List.flatMap_singleton]
    exact yieldsIn_followed f h fun _ => rfl
  | .assign .., _, _, _, hcheck, h => by
    obtain ⟨rfl, rfl⟩ := checkStmt_of_isFlat rfl hcheck
    simp only [Stmt.texts, Stmt.exprs, List.flatMap_cons, List.flatMap_nil, List.append_nil] at h
    rw [lowerStmt, Stmt.callSites]
    exact yieldsIn_lowerAssignment f h
  | .print _ value, _, _, _, hcheck, h => by
    obtain ⟨rfl, rfl⟩ := checkStmt_of_isFlat rfl hcheck
    simp only [Stmt.texts, Stmt.exprs, List.flatMap_singleton] at h
    rw [lowerStmt, Stmt.callSites]
    refine (yieldsIn_lowerExpr f h).bind fun l hl => yieldsIn_pure ?_
    obtain ⟨hcode, s, s', hlower⟩ := hl
    -- the type that lowering found decides which function of the host prints the value
    exact hcode.append_call (.printed ⟨_, s, l, s', rfl, hlower, rfl⟩)
  | .expression _ value, _, _, _, hcheck, h => by
    obtain ⟨rfl, rfl⟩ := checkStmt_of_isFlat rfl hcheck
    simp only [Stmt.texts, Stmt.exprs, List.flatMap_singleton] at h
    rw [lowerStmt, Stmt.callSites]
    exact yieldsIn_followed f h fun _ => by simp [Instr.isPlain]
  | .conditional _ condition body none, _, _, _, hcheck, h => by
    obtain ⟨-, body', w, hbody, rfl, rfl⟩ := checkStmt_conditional_none_iff.mp hcheck
    rw [Stmt.texts, Stmt.exprs, List.flatMap_cons, knows_append_iff] at h
    rw [lowerStmt, Stmt.callSites]
    refine yieldsIn_guarded (yieldsIn_lowerStmts f body hbody h.2) h.1 fun l code => ?_
    simp [Instr.callsAll, Instr.calls]
  | .conditional _ condition body (some alternate), _, t, _, hcheck, h => by
    obtain ⟨-, body', w, hbody, alternate', halternate, rfl⟩ :=
      checkStmt_conditional_some_iff.mp hcheck
    rw [Stmt.texts, Stmt.exprs, List.flatMap_cons, List.flatMap_append, knows_append_iff,
      knows_append_iff] at h
    -- the alternate is lowered in the table that the body leaves, which has the same pool
    have hstrings : w.strings = t.strings := (agrees_stmts body hbody).walk.sameGlobals.strings
    rw [lowerStmt, Stmt.callSites, tableAfter_inScope hbody]
    refine (yieldsIn_lowerExpr f h.1).bind fun l hl => ?_
    refine (yieldsIn_lowerStmts f body hbody h.2.1).inScope.bind fun code hcode => ?_
    refine (yieldsIn_lowerStmt f alternate halternate (hstrings ▸ h.2.2)).bind
      fun other hother => ?_
    refine yieldsIn_pure (((hl.1.append hcode).append hother).of_eq ?_)
    simp [Instr.callsAll, Instr.calls]
  | .whileLoop _ condition body, _, _, _, hcheck, h => by
    obtain ⟨-, body', w, hbody, rfl, rfl⟩ := checkStmt_whileLoop_iff.mp hcheck
    rw [Stmt.texts, Stmt.exprs, List.flatMap_cons, knows_append_iff] at h
    rw [lowerStmt, Stmt.callSites]
    refine yieldsIn_guarded (yieldsIn_lowerStmts f body hbody h.2) h.1 fun l code => ?_
    simp [loopCode, Instr.callsAll, Instr.calls]
  | .block _ body, _, _, _, hcheck, h => by
    obtain ⟨body', w, hbody, rfl, rfl⟩ := checkStmt_block_iff.mp hcheck
    rw [lowerStmt, Stmt.callSites]
    exact (yieldsIn_lowerStmts f body hbody h).inScope

theorem yieldsIn_lowerStmts (f : FunctionContext) {result : DataType} : (stmts : List Stmt) →
    {stmts' : List Stmt} → {t t' : SymbolTable} → checkStmts result stmts t = .ok stmts' t' →
      Knows t.strings (Stmt.textsAll stmts) →
      YieldsIn t (lowerStmts f stmts')
        (CallsAt f.indices f.allocator (Stmt.callSitesAll result stmts t)) t'
  | [], _, _, _, hcheck, _ => by
    obtain ⟨rfl, rfl⟩ := EStateM.pure_eq_ok_iff.mp hcheck
    rw [lowerStmts]
    exact yieldsIn_pure (callsAt_plain rfl)
  | stmt :: stmts, _, t, _, hcheck, h => by
    obtain ⟨stmt', u, hstmt, stmts', hstmts, rfl⟩ := checkStmts_cons_iff.mp hcheck
    rw [Stmt.textsAll_cons, knows_append_iff] at h
    -- checking a statement adds no literal, so those of the rest are known too
    have hstrings : u.strings = t.strings := (agrees_stmt stmt hstmt).walk.sameGlobals.strings
    rw [lowerStmts, Stmt.callSitesAll, hstmt]
    refine (yieldsIn_lowerStmt f stmt hstmt h.1).bind fun code hcode => ?_
    refine (yieldsIn_lowerStmts f stmts hstmts (hstrings ▸ h.2)).bind fun rest hrest => ?_
    exact yieldsIn_pure (hcode.append hrest)

end

end Stmt

/-! ### Declarations

From statements to the functions of a program, and to the errors of `generate`. -/

section Declarations

variable {program checked : Program} {t t' g u u' : SymbolTable} {stmts stmts' : List Stmt}

/-- What lowering a checked function comes to. -/
theorem CheckedIn.outcome (program : Program) {header : FunctionHeader} {source body : List Stmt}
    {signature : Signature} {params last : SymbolTable}
    (h : CheckedIn g header source body signature params last)
    (hlength : signature.params.length = header.params.length) (hu : SameOutside g u)
    (hknown : Knows g.strings (Stmt.textsAll source)) (location : Location) :
    match lowerFunction program header body u with
    | .ok function _ =>
      CallsAt (functionIndices program) (allocatorIndex program)
        ((Stmt.function location header source).callSitesTopLevel g) function.body
    | .error e _ => e.isRuledOut = false := by
  have hbody := yieldsIn_lowerStmts (functionContext program last) source h.checkedBody
    (h.params_strings.symm ▸ hknown) []
  rw [h.lowerFunction_eq program hlength hu]
  cases hrun : lowerStmts (functionContext program last) body ⟨params, []⟩ with
  | ok code s =>
    rw [hrun] at hbody
    simp only [Stmt.callSitesTopLevel, h.found, h.checkedParams, tableAfter]
    -- behind the body there is at most an instruction that traps
    exact hbody.2.append_plain (by split <;> rfl)
  | error e s =>
    rw [hrun] at hbody
    exact hbody

/-- A constructor calls the allocator, once. -/
theorem callsAll_constructor (allocatorIndex : Nat) (name : String)
    (fields : List (String × DataType)) :
    Instr.callsAll (constructor allocatorIndex name fields).body = [allocatorIndex] := by
  have hfields (base : Nat) : Instr.callsAll (storeFields base 0 fields) = [] :=
    Instr.callsAll_of_isPlain (isPlain_storeFields base 0 fields)
  simp [constructor, hfields, Instr.callsAll, Instr.calls]

/-- The code of a declaration has the calls of the declaration. -/
theorem CheckedTopLevel.callsAt {stmt stmt' : Stmt} (h : CheckedTopLevel g stmt stmt')
    (hregistered : Registered g stmts) (hmem : stmt ∈ stmts) (hknown : Knows g.strings stmt.texts)
    {function : Function} (hlowered : LoweredTo program g stmt' function) :
    CallsAt (functionIndices program) (allocatorIndex program) (stmt.callSitesTopLevel g)
      function.body := by
  cases h with
  | struct =>
    obtain ⟨fields, -, rfl⟩ := hlowered.constructor
    rw [CallsAt, callsAll_constructor]
    exact .cons .allocation .nil
  | @function location header source body signature params last hchecked =>
    obtain ⟨u, u', hu, hlower⟩ := hlowered.lowerFunction
    have hlength := hregistered _ _ _ hmem _ hchecked.found
    have houtcome := hchecked.outcome program hlength hu hknown location
    rwa [hlower] at houtcome

/-- Lowering declarations does not stop because of what is ruled out. -/
theorem isRuledOut_of_lowerDeclarations (h : List.Forall₂ (CheckedTopLevel g) stmts stmts')
    (hregistered : Registered g stmts) (hknown : ∀ stmt ∈ stmts, Knows g.strings stmt.texts)
    (hu : SameOutside g u) {e : LoweringError}
    (hlower : lowerDeclarations program stmts' u = .error e u') : e.isRuledOut = false := by
  induction h generalizing u with
  | nil => cases hlower
  | @cons _ _ _ rest hstmt _ ih =>
    -- an error behind this declaration is one of the rest, whose table has the same globals
    have hrest {u₁ : SymbolTable} (hu₁ : SameOutside g u₁)
        (h : lowerDeclarations program rest u₁ = .error e u') : e.isRuledOut = false :=
      ih (fun l d s hmem => hregistered l d s (List.mem_cons_of_mem _ hmem))
        (fun stmt hmem => hknown stmt (List.mem_cons_of_mem _ hmem)) hu₁ h
    cases hstmt with
    | @struct _ decl =>
      rw [lowerDeclarations] at hlower
      rcases EStateM.bind_eq_error_iff.mp hlower with hfirst | ⟨function, u₁, hfirst, hlower⟩
      · rw [lowerStruct] at hfirst
        split at hfirst
        · obtain ⟨rfl, -⟩ := EStateM.Result.error.inj hfirst
          rfl
        · cases hfirst
      · have hu₁ : Resumes g (lowerStruct program decl.name u) := resumes_lowerStruct decl.name hu
        rw [hfirst] at hu₁
        rcases EStateM.bind_eq_error_iff.mp hlower with hothers | ⟨_, _, -, hlower⟩
        · exact hrest hu₁ hothers
        · cases hlower
    | @function location header _ _ _ _ _ hchecked =>
      have hlength := hregistered _ _ _ List.mem_cons_self _ hchecked.found
      rw [lowerDeclarations] at hlower
      rcases EStateM.bind_eq_error_iff.mp hlower with hfirst | ⟨function, u₁, hfirst, hlower⟩
      · have houtcome := hchecked.outcome program hlength hu
          (hknown _ List.mem_cons_self) location
        rwa [hfirst] at houtcome
      · have hu₁ : Resumes g (lowerFunction program header _ u) := hchecked.resumes hlength hu
        rw [hfirst] at hu₁
        rcases EStateM.bind_eq_error_iff.mp hlower with hothers | ⟨_, _, -, hlower⟩
        · exact hrest hu₁ hothers
        · cases hlower

/-- The literals of a parsed program are in the string pool. -/
theorem knows_of_parse {options : CompileOptions} {source : String}
    (h : options.symbols.parse source = (.ok program, t)) :
    ∀ stmt ∈ program.statements, Knows t.strings stmt.texts :=
  fun _ hstmt _ htext => isSome_offset?_of_parse h hstmt htext

/-- An error of checking is never one that is ruled out. -/
theorem isRuledOut_of_semantic {α : Type} {action : SymbolM α} {e : LoweringError}
    (h : semantic action t = .error e t') : e.isRuledOut = false := by
  rw [semantic] at h
  split at h
  · cases h
  · obtain ⟨rfl, -⟩ := EStateM.Result.error.inj h
    rfl

/-- There are as many functions as declared names. -/
theorem length_of_lowered {functions : List Function}
    (h : List.Forall₂ (LoweredTo program g) program.statements functions) :
    hostImports.length + functions.length = allocatorIndex program := by
  have hnames : declaredNames program = functions.map (·.name) := names_of_lowered h
  rw [allocatorIndex, hnames, List.length_map]

/-- No program whose literals are in the string pool fails because of what is ruled out. -/
theorem isRuledOut_of_generate (ht : t.Fresh)
    (hknown : ∀ stmt ∈ program.statements, Knows t.strings stmt.texts) {e : LoweringError}
    (h : generate program t = .error e t') : e.isRuledOut = false := by
  rcases EStateM.bind_eq_error_iff.mp h with h | ⟨_, g, hdeclare, h⟩
  · exact isRuledOut_of_semantic h
  rcases EStateM.bind_eq_error_iff.mp h with h | ⟨checked, g₁, hcheck, h⟩
  · exact isRuledOut_of_semantic h
  have hdeclare := semantic_eq_ok_iff.mp hdeclare
  obtain ⟨stmts', g₂, hstmts, hpure⟩ := EStateM.bind_eq_ok_iff.mp (semantic_eq_ok_iff.mp hcheck)
  obtain ⟨rfl, rfl⟩ := EStateM.pure_eq_ok_iff.mp hpure
  obtain ⟨hpairs, hg₂⟩ := checkTopLevels_eq_ok hstmts (show SameOutside g g from rfl)
  have hregistered := registered_of_declare hdeclare
  have hstrings : g.strings = t.strings := by rw [(ht.declared_of_declare hdeclare).rest]
  rcases EStateM.bind_eq_error_iff.mp h with h | ⟨functions, u, hlower, h⟩
  · exact isRuledOut_of_lowerDeclarations hpairs hregistered (hstrings ▸ hknown) hg₂ h
  · -- the numbers fit, because every declared name has its function
    obtain ⟨hlowered, -⟩ := lowerDeclarations_eq_ok hpairs hregistered hg₂ hlower
    rw [if_pos (length_of_lowered hlowered)] at h
    cases h

end Declarations

end Lowering

end WasmCompiler
