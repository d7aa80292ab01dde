import WasmCompiler.Proofs.Lowering.Scratch
import WasmCompiler.Proofs.Symbols.Walk

/-!
# Checking and lowering take the same slots

Slots are not written into the tree: checking and lowering find them on their own, and the size of
the frame is a third computation. Here the three are compared on every statement that was checked.
`Agrees t stmt t'` says that the checked statement leads from `t` to `t'` (`SymbolTable.Walk`), that
its width is what the slots grow by, and that lowering it in `t` ends in `t'`; or it stops on the
way there, and then never because of the frame.

`agrees_stmt` is the induction over statements that were checked. What it needs for single steps is
in `EndsIn`, and what it says of the code is in `InFrame`.
-/

namespace WasmCompiler

open Wasm (Instr ValueType)

namespace Lowering

variable {α β : Type}

/-! ### Code in a frame -/

section InFrame

/-- Code that leads from a table to another stays below the scratch locals with the variables it
uses, if these have their slots and the frame has room for them. -/
def InFrame (f : FunctionContext) (t t' : SymbolTable) (s : List ValueType) (code : List Instr)
    (s' : List ValueType) : Prop :=
  ∀ params, t.Layout params → t'.nextSlot ≤ f.scratchBase →
    Uses f.scratchBase (· < f.scratchBase) s s' code

variable {f : FunctionContext} {t u t' : SymbolTable} {s s' s'' : List ValueType}
  {code rest : List Instr}

/-- The slots of the first part are still taken while the second one runs. -/
theorem InFrame.append (h : InFrame f t u s code s') (h' : InFrame f u t' s' rest s'')
    (hwalk : t.Walk u) (hwalk' : u.Walk t') : InFrame f t t' s (code ++ rest) s'' := by
  intro params hlayout hbase
  have huses := h params hlayout (Nat.le_trans hwalk'.nextSlot_le hbase)
  exact huses.append (h' params (hwalk.layout hlayout) hbase)

/-- Only the locals that are mentioned count. -/
theorem InFrame.of_eq (h : InFrame f t t' s code s')
    (heq : Instr.mentionsAll rest = Instr.mentionsAll code) : InFrame f t t' s rest s' :=
  fun params hlayout hbase => (h params hlayout hbase).of_eq heq

/-- What a block declares it may use, and its slots are below the frame too. -/
theorem InFrame.inner (h : InFrame f t.enterScope u s code s') :
    InFrame f t u.exitScope s code s' :=
  fun params hlayout hbase => h params hlayout.enterScope hbase

theorem inFrame_quiet (h : Instr.mentionsAll code = []) : InFrame f t t' s code s :=
  fun _ _ _ => .quiet h

/-- What an expression reads are slots of variables that can be seen. -/
theorem inFrame_of_usesScratch (h : UsesScratch (f.withSymbols t) s code s') :
    InFrame f t t s code s' := by
  intro params hlayout hbase
  refine h.mono fun i ⟨name, var, hvar, _, hi⟩ => ?_
  obtain ⟨scope, hscope, hmem⟩ := SymbolTable.lookupVariable?_mem hvar
  have hend := (hlayout.visible var (List.mem_flatten.mpr ⟨scope, hscope, hmem⟩)).1
  omega

/-- Code that uses slots of the frame only. -/
theorem uses_below {base : Nat} (h : ∀ p ∈ Instr.mentionsAll code, p.1 < base) :
    Uses base (· < base) s s code := by
  refine ⟨List.prefix_refl _, ?_, ?_⟩
  · intro i hi
    obtain ⟨p, hp, rfl⟩ := List.mem_map.mp hi
    exact .inl (h p hp)
  · have hnone : (Instr.writes code).filter (base ≤ ·) = [] := by
      refine List.filter_eq_nil_iff.mpr fun i hi => ?_
      obtain ⟨p, hp, rfl⟩ := List.mem_map.mp hi
      have hlt : p.1 < base := h p (List.mem_of_mem_filter hp)
      simpa using hlt
    rw [hnone, Nat.sub_self]
    exact .refl _

theorem below_setSlots {base slot width : Nat} (h : slot + width ≤ base) :
    ∀ p ∈ Instr.mentionsAll (setSlots slot width), p.1 < base := by
  intro p hp
  rw [mentionsAll_setSlots] at hp
  obtain ⟨k, hk, rfl⟩ := List.mem_map.mp hp
  have hk : k < width := List.mem_range.mp (List.mem_reverse.mp hk)
  show slot + k < base
  omega

theorem mem_mentionsAll_flatMap {γ : Type} {items : List γ} {g : γ → List Instr} {p : Nat × Bool}
    (h : p ∈ Instr.mentionsAll (items.flatMap g)) :
    ∃ x ∈ items, p ∈ Instr.mentionsAll (g x) := by
  induction items with
  | nil => cases h
  | cons x xs ih =>
    rw [List.flatMap_cons, Instr.mentionsAll_append, List.mem_append] at h
    rcases h with h | h
    · exact ⟨x, List.mem_cons_self, h⟩
    · obtain ⟨y, hy, hp⟩ := ih h
      exact ⟨y, List.mem_cons_of_mem _ hy, hp⟩

theorem below_copySlots {base source target width : Nat} (hsource : source + width ≤ base)
    (htarget : target + width ≤ base) :
    ∀ p ∈ Instr.mentionsAll (copySlots source target width), p.1 < base := by
  intro p hp
  obtain ⟨k, hk, hp⟩ := mem_mentionsAll_flatMap hp
  have hk : k < width := List.mem_range.mp hk
  simp only [Instr.mentionsAll, Instr.mentions, List.append_nil, List.singleton_append,
    List.mem_cons, List.not_mem_nil, or_false] at hp
  rcases hp with rfl | rfl
  · show source + k < base
    omega
  · show target + k < base
    omega

theorem below_zeroSlots {base : Nat} {var : Variable} (h : var.slot + var.type.width ≤ base) :
    ∀ p ∈ Instr.mentionsAll (zeroSlots var), p.1 < base := by
  intro p hp
  obtain ⟨⟨type, k⟩, hk, hp⟩ := mem_mentionsAll_flatMap hp
  have hk : k < var.type.machineTypes.length := by
    have := List.mem_zipIdx hk
    omega
  have hmention : p = (var.slot + k, true) := by
    cases type <;> simpa [Instr.mentionsAll, Instr.mentions, Instr.zero] using hp
  rw [hmention]
  have hwidth : var.type.width = var.type.machineTypes.length := rfl
  show var.slot + k < base
  omega

end InFrame

/-! ### Steps of the lowering

Lowering may stop for other reasons, but never because of the frame. -/

section Steps

variable {t t' u : SymbolTable} {s : List ValueType} {post : α → List ValueType → Prop}

/-- Lowering ends in a table, with what is asked for, or it stops before, and then not because of
the frame. -/
def EndsIn (t' : SymbolTable) (post : α → List ValueType → Prop) :
    EStateM.Result LoweringError LoweringState α → Prop
  | .ok a s => s.symbols = t' ∧ post a s.scratch
  | .error e s => s.symbols.declared <+: t'.declared ∧ ¬ e.ConcernsFrame

theorem endsIn_pure {a : α} (h : post a s) :
    EndsIn t post ((pure a : LoweringM α) ⟨t, s⟩) :=
  ⟨rfl, h⟩

/-- The second step begins in the table in which the first one ends. -/
theorem EndsIn.bind {x : LoweringM α} {k : α → LoweringM β} {s₀ : LoweringState}
    {post' : β → List ValueType → Prop} (hx : EndsIn u post (x s₀)) (hwalk : u.Walk t')
    (hk : ∀ a s', post a s' → EndsIn t' post' (k a ⟨u, s'⟩)) : EndsIn t' post' ((x >>= k) s₀) := by
  cases hs : x s₀ with
  | ok a s₁ =>
    rw [hs] at hx
    obtain ⟨t₁, s₁⟩ := s₁
    obtain ⟨rfl, hpost⟩ := hx
    rw [EStateM.bind_of_ok hs]
    exact hk a s₁ hpost
  | error e s₁ =>
    rw [hs] at hx
    rw [EStateM.bind_of_error hs]
    exact ⟨hx.1.trans hwalk.declared_prefix, hx.2⟩

theorem EndsIn.mono {post' : α → List ValueType → Prop}
    {r : EStateM.Result LoweringError LoweringState α} (h : EndsIn t post r)
    (hpost : ∀ a s, post a s → post' a s) : EndsIn t post' r := by
  cases r with
  | ok a s => exact ⟨h.1, hpost a _ h.2⟩
  | error e s => exact h

theorem endsIn_expr {f : FunctionContext} {lower : LoweringContext → ScratchM α}
    (h : Runs (lower (f.withSymbols t)) s post) : EndsIn t post (expr f lower ⟨t, s⟩) := by
  unfold Runs at h
  cases hs : lower (f.withSymbols t) s with
  | ok p =>
    rw [hs] at h
    simp only [expr, hs]
    exact ⟨rfl, h⟩
  | error e =>
    rw [hs] at h
    simp only [expr, hs]
    exact ⟨List.prefix_refl _, h⟩

theorem endsIn_inScope {action : LoweringM α}
    (h : EndsIn u post (action ⟨t.enterScope, s⟩)) :
    EndsIn u.exitScope post (inScope action ⟨t, s⟩) := by
  unfold inScope
  rw [withTable]
  cases hs : action ⟨t.enterScope, s⟩ with
  | ok a s' =>
    rw [hs] at h
    exact ⟨congrArg SymbolTable.exitScope h.1, h.2⟩
  | error e s' =>
    rw [hs] at h
    exact h

end Steps

/-! ### Declarations

The statements that take slots. -/

section Declarations

variable {t t' : SymbolTable} {bindings : List Binding} {vars : List Variable}

/-- A declaration is a way from one table to another. -/
theorem Declares.walk (h : Declares t bindings vars t') : t.Walk t' := by
  induction h with
  | nil => exact .done
  | cons _ _ _ _ ih => exact .define ih

/-- The slots of declared variables are below the next free one. -/
theorem Declares.ends_below {params : List ValueType} {base : Nat} (h : Declares t bindings vars t')
    (hlayout : t.Layout params) (hbase : t'.nextSlot ≤ base) :
    ∀ var ∈ vars, var.slot + var.type.width ≤ base := fun var hvar =>
  Nat.le_trans ((h.walk.layout hlayout).visible var (h.mem_scopes hvar)).1 hbase

/-- All names that share a value take as many slots. -/
theorem width_eq_of_bindingType {initial : Option DataType} {types : List DataType}
    (h : List.Forall₂ (fun b type => bindingType t initial true b = .ok type) bindings types) :
    ∃ width, ∀ type ∈ types, type.width = width := by
  cases initial with
  | some found =>
    refine ⟨found.width, forall_mem_of_forall₂ h fun b type hb => ?_⟩
    rw [(bindingType_eq_ok hb).1 found rfl]
  | none =>
    -- a value without a type of its own is an empty array
    refine ⟨1, forall_mem_of_forall₂ h fun b type hb => ?_⟩
    have harray : type.isArray := ((bindingType_eq_ok hb).2 rfl).2 rfl
    cases type <;> first | rfl | cases harray

/-- Variables without a value are set to zero, in their own slots. -/
theorem inFrame_zeroSlots {f : FunctionContext} {s : List ValueType}
    (h : Declares t bindings vars t') : InFrame f t t' s (vars.flatMap zeroSlots) s := by
  intro params hlayout hbase
  refine uses_below fun p hp => ?_
  obtain ⟨var, hvar, hp⟩ := mem_mentionsAll_flatMap hp
  exact below_zeroSlots (h.ends_below hlayout hbase var hvar) p hp

/-- The value is written to the first variable and copied to the others. -/
theorem inFrame_initialCode {f : FunctionContext} {s : List ValueType} {first : Variable}
    {others : List Variable} {width : Nat} (h : Declares t bindings (first :: others) t')
    (hwidth : ∀ var ∈ first :: others, var.type.width = width) :
    InFrame f t t' s (initialCode first others) s := by
  intro params hlayout hbase
  have hbelow := h.ends_below hlayout hbase
  rw [List.forall_mem_cons] at hbelow hwidth
  refine uses_below fun p hp => ?_
  rw [initialCode, Instr.mentionsAll_append, List.mem_append] at hp
  rcases hp with hp | hp
  · exact below_setSlots hbelow.1 p hp
  · obtain ⟨var, hvar, hp⟩ := mem_mentionsAll_flatMap hp
    refine below_copySlots hbelow.1 ?_ p hp
    rw [hwidth.1, ← hwidth.2 var hvar]
    exact hbelow.2 var hvar

end Declarations

/-! ### Statements

Everything else goes through the parts of a statement. -/

/-- Checked statements lead from a table to another, and so does lowering them. -/
structure Agrees (t : SymbolTable) (width : Except LoweringError Nat)
    (lower : FunctionContext → LoweringM (List Instr)) (t' : SymbolTable) : Prop where
  walk : t.Walk t'
  width : ∃ n, width = .ok n ∧ t'.nextSlot = t.nextSlot + n
  endsIn : ∀ f s, EndsIn t' (InFrame f t t' s) (lower f ⟨t, s⟩)

section Statements

variable {t t' u : SymbolTable}

/-- Statements in a scope of their own. -/
theorem Agrees.inner {stmts : List Stmt}
    (h : Agrees t.enterScope (framesWidth stmts) (lowerStmts · stmts) u) :
    Agrees t (framesWidth stmts) (fun f => inScope (lowerStmts f stmts)) u.exitScope where
  walk := h.walk.inner
  width := h.width
  endsIn f s := by
    exact endsIn_inScope ((h.endsIn f s).mono fun _ _ hcode => hcode.inner)

/-- The code of an expression uses variables that can be seen and its own scratch locals. -/
theorem endsIn_lowerExpr (f : FunctionContext) (s : List ValueType) (e : Expr) :
    EndsIn t (fun l => InFrame f t t s l.code) (expr f (lowerExpr · e) ⟨t, s⟩) :=
  (endsIn_expr (runs_lowerExpr (f.withSymbols t) s e)).mono fun _ _ => inFrame_of_usesScratch

/-- The width that is computed from the bindings is what their slots take. -/
theorem agrees_declaration {bindings bindings' : List Binding} {value : Option Expr}
    {location : Location} (h : checkDeclaration bindings value t = .ok bindings' t') :
    Agrees t (bindingsWidth location bindings')
      (fun f => lowerDeclaration f location bindings' value) t' := by
  obtain ⟨initial, types, -, htypes, hdefine⟩ := checkDeclaration_eq_ok h
  obtain ⟨vars, hvars, hmap⟩ := declares_of_check htypes.length_eq hdefine
  refine ⟨hvars.walk, hvars.bindingsWidth location, fun f s => ?_⟩
  cases value with
  | none =>
    rw [lowerDeclaration, EStateM.bind_of_ok (defineBindings_eq_ok hvars location s)]
    exact endsIn_pure (inFrame_zeroSlots hvars)
  | some value =>
    refine (endsIn_lowerExpr f s value).bind hvars.walk fun l s' hl => ?_
    rw [EStateM.bind_of_ok (defineBindings_eq_ok hvars location s')]
    cases vars with
    | nil => exact ⟨List.prefix_refl _, id⟩
    | cons first others =>
      -- the value is kept in the slots of the first variable and copied to the others, which are
      -- as wide
      obtain ⟨width, hwidth⟩ := width_eq_of_bindingType htypes
      have hwidths : ∀ var ∈ first :: others, var.type.width = width := by
        intro var hvar
        exact hwidth _ (hmap ▸ List.mem_map_of_mem hvar)
      exact endsIn_pure (hl.append (inFrame_initialCode hvars hwidths) .done hvars.walk)

/-- A variable that can be seen has its slots in the frame. -/
theorem inFrame_setSlots {f : FunctionContext} {s : List ValueType} {name : String}
    {var : Variable} (h : t.lookupVariable? name = some var) :
    InFrame f t t s (setSlots var.slot var.type.width) s := by
  intro params hlayout hbase
  obtain ⟨scope, hscope, hmem⟩ := SymbolTable.lookupVariable?_mem h
  have hend := (hlayout.visible var (List.mem_flatten.mpr ⟨scope, hscope, hmem⟩)).1
  exact uses_below (below_setSlots (Nat.le_trans hend hbase))

/-- What is assigned to is a variable, a field or an item. -/
theorem endsIn_lowerAssignment (f : FunctionContext) (s : List ValueType) (target value : Expr) :
    EndsIn t (InFrame f t t s) (lowerAssignment f value target ⟨t, s⟩) := by
  cases target with
  | identifier location name =>
    -- the slot depends on the table, so the state is opened; an unknown variable ends lowering
    rw [lowerAssignment, EStateM.bind_of_ok (EStateM.get_eq_ok_iff.mpr ⟨rfl, rfl⟩)]
    cases hvar : t.lookupVariable? name with
    | none =>
      dsimp only
      exact ⟨List.prefix_refl _, id⟩
    | some var =>
      dsimp only
      refine (endsIn_lowerExpr f s value).bind .done fun l s₁ hl => endsIn_pure ?_
      exact hl.append (inFrame_setSlots hvar) .done .done
  | member location base name =>
    rw [lowerAssignment]
    refine (endsIn_lowerExpr f s base).bind .done fun b s₁ hb => ?_
    refine (endsIn_expr (runs_fieldOf b.type name base.location)).bind .done fun p s₂ hs => ?_
    subst hs
    refine (endsIn_lowerExpr f s₂ value).bind .done fun l s₃ hl => endsIn_pure ?_
    exact (hb.append hl .done .done).append (inFrame_quiet rfl) .done .done
  | _ => exact ⟨List.prefix_refl _, id⟩

/-- A statement without declarations. -/
theorem agrees_simple {lower : FunctionContext → LoweringM (List Instr)}
    (h : ∀ f s, EndsIn t (InFrame f t t s) (lower f ⟨t, s⟩)) : Agrees t (.ok 0) lower t :=
  ⟨.done, ⟨0, rfl, rfl⟩, h⟩

/-- An expression, and code that uses no locals. -/
theorem endsIn_followed (f : FunctionContext) (s : List ValueType) (e : Expr)
    (rest : Lowered → List Instr) (hrest : ∀ l, Instr.mentionsAll (rest l) = []) :
    EndsIn t (InFrame f t t s)
      ((do
        let l ← expr f (lowerExpr · e)
        return l.code ++ rest l : LoweringM (List Instr)) ⟨t, s⟩) :=
  (endsIn_lowerExpr f s e).bind .done fun l _ hl =>
    endsIn_pure (hl.append (inFrame_quiet (hrest l)) .done .done)

/-- A condition with a body in a scope of its own, where what is put around the two uses no
locals. -/
theorem Agrees.guarded {stmts : List Stmt}
    (h : Agrees t.enterScope (framesWidth stmts) (lowerStmts · stmts) u) (condition : Expr)
    {around : Lowered → List Instr → List Instr}
    (haround : ∀ l code, Instr.mentionsAll (around l code) = Instr.mentionsAll (l.code ++ code)) :
    Agrees t (framesWidth stmts)
      (fun f => do
        let l ← expr f (lowerExpr · condition)
        let code ← inScope (lowerStmts f stmts)
        return around l code)
      u.exitScope := by
  have hinner := h.inner
  refine ⟨hinner.walk, hinner.width, fun f s => ?_⟩
  refine (endsIn_lowerExpr f s condition).bind hinner.walk fun l s₁ hl => ?_
  refine (hinner.endsIn f s₁).bind .done fun code s₂ hcode => endsIn_pure ?_
  exact (hl.append hcode .done hinner.walk).of_eq (haround l code)

mutual

/-- Checking a statement, lowering what was checked and computing its width agree. -/
theorem agrees_stmt {result : DataType} : (stmt : Stmt) → {stmt' : Stmt} →
    {t t' : SymbolTable} → checkStmt result stmt t = .ok stmt' t' →
      Agrees t stmt'.frameWidth (lowerStmt · stmt') t'
  | .declare .., _, _, _, h => by
    obtain ⟨bindings', hbindings, rfl⟩ := checkStmt_declare_iff.mp h
    exact agrees_declaration hbindings
  | .function .., _, _, _, h | .struct .., _, _, _, h => by
    rw [checkStmt] at h
    cases h
  | .ret _ value, _, _, _, h => by
    obtain ⟨rfl, rfl⟩ := checkStmt_of_isFlat rfl h
    refine agrees_simple fun f s => ?_
    cases value with
    | none => exact endsIn_pure (inFrame_quiet rfl)
    | some value => exact endsIn_followed f s value (fun _ => [.ret]) fun _ => rfl
  | .assign location target value, _, _, _, h => by
    obtain ⟨rfl, rfl⟩ := checkStmt_of_isFlat rfl h
    exact agrees_simple fun f s => endsIn_lowerAssignment f s target value
  | .print _ value, _, _, _, h => by
    obtain ⟨rfl, rfl⟩ := checkStmt_of_isFlat rfl h
    exact agrees_simple fun f s =>
      endsIn_followed f s value (fun l => [printCode l.type]) fun _ => rfl
  | .expression _ value, _, _, _, h => by
    obtain ⟨rfl, rfl⟩ := checkStmt_of_isFlat rfl h
    refine agrees_simple fun f s => endsIn_followed f s value _ fun l => ?_
    induction l.type.width with
    | zero => rfl
    | succ n ih => exact ih
  | .conditional _ condition body none, _, _, _, h => by
    obtain ⟨-, body', u, hbody, rfl, rfl⟩ := checkStmt_conditional_none_iff.mp h
    refine (agrees_stmts body hbody).guarded condition fun l code => ?_
    simp [Instr.mentionsAll, Instr.mentions]
  | .conditional _ condition body (some alternate), _, _, _, h => by
    obtain ⟨-, body', u, hbody, alternate', halternate, rfl⟩ :=
      checkStmt_conditional_some_iff.mp h
    have hinner := (agrees_stmts body hbody).inner
    have hother := agrees_stmt alternate halternate
    have hwalk := hinner.walk.trans hother.walk
    -- the branches do not share slots: the second begins where the first ended
    obtain ⟨width, hwidth, hnext⟩ := hinner.width
    obtain ⟨other, hothers, hnext'⟩ := hother.width
    refine ⟨hwalk, ⟨width + other, ?_, by omega⟩, fun f s => ?_⟩
    · rw [Stmt.frameWidth, hothers, hwidth]
      rfl
    · refine (endsIn_lowerExpr f s condition).bind hwalk fun l s₁ hl => ?_
      refine (hinner.endsIn f s₁).bind hother.walk fun code s₂ hcode => ?_
      refine (hother.endsIn f s₂).bind .done fun code' s₃ hcode' => endsIn_pure ?_
      have hbodies := hcode.append hcode' hinner.walk hother.walk
      refine (hl.append hbodies .done hwalk).of_eq ?_
      simp [Instr.mentionsAll, Instr.mentions]
  | .whileLoop _ condition body, _, _, _, h => by
    obtain ⟨-, body', u, hbody, rfl, rfl⟩ := checkStmt_whileLoop_iff.mp h
    refine (agrees_stmts body hbody).guarded condition fun l code => ?_
    simp [loopCode, Instr.mentionsAll, Instr.mentions]
  | .block _ body, _, _, _, h => by
    obtain ⟨body', u, hbody, rfl, rfl⟩ := checkStmt_block_iff.mp h
    exact (agrees_stmts body hbody).inner

theorem agrees_stmts {result : DataType} : (stmts : List Stmt) → {stmts' : List Stmt} →
    {t t' : SymbolTable} → checkStmts result stmts t = .ok stmts' t' →
      Agrees t (framesWidth stmts') (lowerStmts · stmts') t'
  | [], _, _, _, h => by
    obtain ⟨rfl, rfl⟩ := EStateM.pure_eq_ok_iff.mp h
    exact agrees_simple fun f s => endsIn_pure (inFrame_quiet rfl)
  | stmt :: stmts, _, _, _, h => by
    obtain ⟨stmt', u, hstmt, stmts', hstmts, rfl⟩ := checkStmts_cons_iff.mp h
    have hfirst := agrees_stmt stmt hstmt
    have hrest := agrees_stmts stmts hstmts
    -- the widths of the frames add up, as the tables come one after another
    obtain ⟨width, hwidth, hnext⟩ := hfirst.width
    obtain ⟨others, hothers, hnext'⟩ := hrest.width
    refine ⟨hfirst.walk.trans hrest.walk, ⟨width + others, ?_, by omega⟩, fun f s => ?_⟩
    · rw [framesWidth, hwidth, hothers]
      rfl
    · refine (hfirst.endsIn f s).bind hrest.walk fun code s₁ hcode => ?_
      refine (hrest.endsIn f s₁).bind .done fun code' s₂ hcode' => endsIn_pure ?_
      exact hcode.append hcode' hfirst.walk hrest.walk

end

end Statements

end Lowering

end WasmCompiler
