import WasmCompiler.Proofs.Lowering.Code

/-!
# Where variables live

Slots are handed out in order and never again, so the types of all slots of a function are those of
its parameters followed by those of its declared variables (`SymbolTable.slotTypes`). A variable
that can be seen has the slots that its type asks for, and the slots of two variables are apart
(`SymbolTable.Layout`). Every statement keeps this, and what it declares comes after what was
declared before. The number of slots that are declared is the one that was computed beforehand.

* `Layout.withVariable`, `Layout.enterScope` and `Layout.exitScope` are the steps;
* `StmtCode.layout` and `StmtCode.frameWidth` are the inductions over the code of statements.
-/

namespace WasmCompiler

open Wasm (Instr ValueType)

namespace SymbolTable

/-- The types of the slots in use, those of the parameters first. -/
def slotTypes (params : List ValueType) (t : SymbolTable) : List ValueType :=
  params ++ t.declared.flatMap (·.type.machineTypes)

/-- The variables that can be seen have slots of their types, each its own. -/
structure Layout (params : List ValueType) (t : SymbolTable) : Prop where
  nextSlot : t.nextSlot = (t.slotTypes params).length
  visible : ∀ var ∈ t.scopes.flatten,
    var.slot + var.type.width ≤ t.nextSlot ∧
      var.type.machineTypes <+: (t.slotTypes params).drop var.slot
  apart : t.scopes.flatten.Pairwise fun later earlier =>
    earlier.slot + earlier.type.width ≤ later.slot

variable {params : List ValueType} {t t' : SymbolTable}

theorem flatten_withVariable (var : Variable) :
    (t.withVariable var).scopes.flatten = var :: t.scopes.flatten := by
  simp only [withVariable]
  cases t.scopes <;> simp

/-- A variable in the next slots leaves the others where they are. -/
theorem Layout.withVariable (h : t.Layout params) {params' : List ValueType} {var : Variable}
    (hslot : var.slot = t.nextSlot)
    (htypes : (t.withVariable var).slotTypes params' =
      t.slotTypes params ++ var.type.machineTypes) :
    (t.withVariable var).Layout params' := by
  have hnext : (t.withVariable var).nextSlot = t.nextSlot + var.type.width := rfl
  refine ⟨?_, ?_, ?_⟩
  · rw [hnext, htypes, List.length_append, ← h.nextSlot]
    rfl
  · rw [flatten_withVariable, List.forall_mem_cons, hnext, htypes, hslot]
    refine ⟨⟨Nat.le_refl _, ?_⟩, fun other hother => ?_⟩
    · simp [h.nextSlot]
    · -- the variables before keep their slots, which lie below the new one
      obtain ⟨hbelow, hbegins⟩ := h.visible other hother
      refine ⟨Nat.le_add_right_of_le hbelow, ?_⟩
      have hstart : other.slot ≤ (t.slotTypes params).length := by
        rw [← h.nextSlot]
        omega
      rw [List.drop_append_of_le_length hstart]
      exact hbegins.trans (List.prefix_append _ _)
  · rw [flatten_withVariable, List.pairwise_cons]
    refine ⟨fun other hother => ?_, h.apart⟩
    rw [hslot]
    exact (h.visible other hother).1

theorem Layout.enterScope (h : t.Layout params) : t.enterScope.Layout params :=
  ⟨h.nextSlot, h.visible, h.apart⟩

/-- Leaving a scope hides its variables and no others. -/
theorem flatten_tail_sublist (scopes : List (List Variable)) :
    scopes.tail.flatten.Sublist scopes.flatten := by
  cases scopes with
  | nil => exact List.Sublist.refl _
  | cons scope outer => exact List.sublist_append_right _ _

theorem Layout.exitScope (h : t.Layout params) : t.exitScope.Layout params :=
  ⟨h.nextSlot, fun var hvar => h.visible var ((flatten_tail_sublist _).subset hvar),
    h.apart.sublist (flatten_tail_sublist _)⟩

/-- The slots that are in use stay so. -/
theorem slotTypes_prefix (params : List ValueType) (h : t.declared <+: t'.declared) :
    t.slotTypes params <+: t'.slotTypes params := by
  obtain ⟨others, hothers⟩ := h
  rw [slotTypes, slotTypes, ← hothers, List.flatMap_append, ← List.append_assoc]
  exact List.prefix_append _ _

end SymbolTable

namespace Lowering

variable {f : FunctionContext} {result : DataType} {params : List ValueType}

/-! ### Declarations

The names of one declaration share the type of its value. -/

/-- The slots of a declared variable come last. -/
theorem slotTypes_declared (t : SymbolTable) (name : String) (type : DataType) :
    (t.withVariable (declaredVariable t name type)).slotTypes params =
      t.slotTypes params ++ type.machineTypes := by
  simp [SymbolTable.slotTypes, SymbolTable.withVariable, declaredVariable]

/-- By induction over the names that are declared. -/
theorem Declares.layout {t t' : SymbolTable} {bindings : List Binding} {vars : List Variable}
    (h : Declares t bindings vars t') (ht : t.Layout params) :
    t'.Layout params ∧ t'.declared = t.declared ++ vars := by
  induction h with
  | nil => exact ⟨ht, by simp⟩
  | @cons t t' b bs vars type _ _ _ _ ih =>
    obtain ⟨hlayout, hdeclared⟩ :=
      ih (ht.withVariable rfl (slotTypes_declared t b.name type))
    refine ⟨hlayout, ?_⟩
    rw [hdeclared]
    simp [SymbolTable.withVariable, declaredVariable]

/-- The new variables are in the innermost scope, the last one first. -/
theorem Declares.scopes {t t' : SymbolTable} {bindings : List Binding} {vars : List Variable}
    (h : Declares t bindings vars t') (ht : t.scopes ≠ []) :
    t'.scopes = (vars.reverse ++ t.scopes.headD []) :: t.scopes.tail := by
  induction h with
  | nil =>
    rename_i t
    cases hscopes : t.scopes with
    | nil => exact absurd hscopes ht
    | cons scope outer => simp
  | @cons t t' b bs vars type _ _ _ _ ih =>
    rw [ih (by simp [SymbolTable.withVariable])]
    simp [SymbolTable.withVariable]

/-- Every variable of a declaration can be seen after it. -/
theorem Declares.mem_scopes {t t' : SymbolTable} {bindings : List Binding} {vars : List Variable}
    (h : Declares t bindings vars t') {var : Variable} (hvar : var ∈ vars) :
    var ∈ t'.scopes.flatten := by
  have hopen : t.scopes ≠ [] := by
    cases h with
    | nil => cases hvar
    | cons _ hopen _ _ => exact hopen
  rw [h.scopes hopen]
  simp [hvar]

/-- Nothing but variables is declared in a statement. -/
theorem Declares.sameGlobals {t t' : SymbolTable} {bindings : List Binding}
    {vars : List Variable} (h : Declares t bindings vars t') : t.SameGlobals t' := by
  induction h with
  | nil => exact .refl _
  | cons _ _ _ _ ih => exact ⟨ih.functions, ih.structs, ih.strings, ih.exportsMemory⟩

/-- The width is the sum of the widths of the annotations that were filled in. -/
theorem Declares.bindingsWidth {t t' : SymbolTable} {bindings : List Binding}
    {vars : List Variable} (h : Declares t bindings vars t') (location : Location) :
    ∃ width, bindingsWidth location bindings = .ok width ∧ t'.nextSlot = t.nextSlot + width := by
  induction h with
  | nil => exact ⟨0, rfl, rfl⟩
  | @cons t t' b bs vars type htype _ _ _ ih =>
    obtain ⟨width, hwidth, hnext⟩ := ih
    refine ⟨type.width + width, ?_, ?_⟩
    · simp only [WasmCompiler.bindingsWidth, htype, hwidth]
      rfl
    · rw [hnext]
      simp only [SymbolTable.withVariable, declaredVariable]
      omega

/-! ### Statements

What the code of a statement does to the table. -/

mutual

/-- A statement keeps the scopes around the innermost one, and all of them unless it declares
something. -/
theorem StmtCode.scopes {t t' : SymbolTable} {s s' : List ValueType} {stmt : Stmt}
    {code : List Instr} : StmtCode f result t s stmt code t' s' → t.scopes ≠ [] →
      t'.scopes ≠ [] ∧ t'.scopes.tail = t.scopes.tail ∧ (stmt.isAlternate → t'.scopes = t.scopes)
  | .declare hbindings, ht | .initial _ hbindings _, ht => by
    rw [hbindings.scopes ht]
    exact ⟨by simp, rfl, by simp [Stmt.isAlternate]⟩
  | .leave _, ht | .giveBack _, ht | .assign .., ht | .setField .., ht | .print .., ht
  | .evaluate _, ht => ⟨ht, rfl, fun _ => rfl⟩
  | .when _ hbody, ht | .loop _ hbody, ht | .block hbody, ht => by
    have hscopes : (SymbolTable.exitScope _).scopes = t.scopes :=
      (hbody.scopes (List.cons_ne_nil _ _)).2
    rw [hscopes]
    exact ⟨ht, rfl, fun _ => rfl⟩
  | .choose hshape _ hbody halternate, ht => by
    -- the alternate is a block or a condition, so it leaves the scopes it began with
    have hscopes : (SymbolTable.exitScope _).scopes = t.scopes :=
      (hbody.scopes (List.cons_ne_nil _ _)).2
    rw [(halternate.scopes (by rwa [hscopes])).2.2 hshape, hscopes]
    exact ⟨ht, rfl, fun _ => rfl⟩

theorem StmtsCode.scopes {t t' : SymbolTable} {s s' : List ValueType} {stmts : List Stmt}
    {code : List Instr} : StmtsCode f result t s stmts code t' s' → t.scopes ≠ [] →
      t'.scopes ≠ [] ∧ t'.scopes.tail = t.scopes.tail
  | .nil, ht => ⟨ht, rfl⟩
  | .cons hstmt hstmts, ht => by
    obtain ⟨ht₁, htail, -⟩ := hstmt.scopes ht
    obtain ⟨ht', htail'⟩ := hstmts.scopes ht₁
    exact ⟨ht', htail'.trans htail⟩

end

/-- Leaving the scope of a block leaves the scopes from before it. -/
theorem StmtsCode.scopes_inner {t t' : SymbolTable} {s s' : List ValueType} {stmts : List Stmt}
    {code : List Instr} (h : StmtsCode f result t.enterScope s stmts code t' s') :
    t'.exitScope.scopes = t.scopes :=
  (h.scopes (List.cons_ne_nil _ _)).2

mutual

/-- By induction over the code; a block restores the scopes and keeps what it declared. -/
theorem StmtCode.layout {t t' : SymbolTable} {s s' : List ValueType} {stmt : Stmt}
    {code : List Instr} : StmtCode f result t s stmt code t' s' → t.Layout params →
      t'.Layout params ∧ t.declared <+: t'.declared
  | .declare hbindings, ht | .initial _ hbindings _, ht => by
    obtain ⟨ht', hdeclared⟩ := hbindings.layout ht
    exact ⟨ht', hdeclared ▸ List.prefix_append _ _⟩
  | .leave _, ht | .giveBack _, ht | .assign .., ht | .setField .., ht | .print .., ht
  | .evaluate _, ht => ⟨ht, List.prefix_refl _⟩
  | .when _ hbody, ht | .loop _ hbody, ht | .block hbody, ht => by
    obtain ⟨ht', hdeclared⟩ := hbody.layout ht.enterScope
    exact ⟨ht'.exitScope, hdeclared⟩
  | .choose _ _ hbody halternate, ht => by
    obtain ⟨ht₁, hdeclared⟩ := hbody.layout ht.enterScope
    obtain ⟨ht', hdeclared'⟩ := halternate.layout ht₁.exitScope
    exact ⟨ht', hdeclared.trans hdeclared'⟩

theorem StmtsCode.layout {t t' : SymbolTable} {s s' : List ValueType} {stmts : List Stmt}
    {code : List Instr} : StmtsCode f result t s stmts code t' s' → t.Layout params →
      t'.Layout params ∧ t.declared <+: t'.declared
  | .nil, ht => ⟨ht, List.prefix_refl _⟩
  | .cons hstmt hstmts, ht => by
    obtain ⟨ht₁, hdeclared⟩ := hstmt.layout ht
    obtain ⟨ht', hdeclared'⟩ := hstmts.layout ht₁
    exact ⟨ht', hdeclared.trans hdeclared'⟩

end

mutual

/-- A statement changes the variables of a table only. -/
theorem StmtCode.sameGlobals {t t' : SymbolTable} {s s' : List ValueType} {stmt : Stmt}
    {code : List Instr} : StmtCode f result t s stmt code t' s' → t.SameGlobals t'
  | .declare hbindings | .initial _ hbindings _ => hbindings.sameGlobals
  | .leave _ | .giveBack _ | .assign .. | .setField .. | .print .. | .evaluate _ => .refl _
  | .when _ hbody | .loop _ hbody | .block hbody => hbody.sameGlobals.exitScope
  | .choose _ _ hbody halternate => hbody.sameGlobals.exitScope.trans halternate.sameGlobals

theorem StmtsCode.sameGlobals {t t' : SymbolTable} {s s' : List ValueType} {stmts : List Stmt}
    {code : List Instr} : StmtsCode f result t s stmts code t' s' → t.SameGlobals t'
  | .nil => .refl _
  | .cons hstmt hstmts => hstmt.sameGlobals.trans hstmts.sameGlobals

end

/-- Leaving a scope changes nothing else either. -/
theorem StmtsCode.sameGlobals_inner {t t' : SymbolTable} {s s' : List ValueType}
    {stmts : List Stmt} {code : List Instr}
    (h : StmtsCode f result t.enterScope s stmts code t' s') : t.SameGlobals t'.exitScope :=
  h.sameGlobals.exitScope

mutual

/-- A statement takes as many slots as it was computed to take. -/
theorem StmtCode.frameWidth {t t' : SymbolTable} {s s' : List ValueType} {stmt : Stmt}
    {code : List Instr} : StmtCode f result t s stmt code t' s' →
      ∃ width, stmt.frameWidth = .ok width ∧ t'.nextSlot = t.nextSlot + width
  | .declare hbindings | .initial _ hbindings _ => hbindings.bindingsWidth _
  | .leave _ | .giveBack _ | .assign .. | .setField .. | .print .. | .evaluate _ => ⟨0, rfl, rfl⟩
  | .when _ hbody | .loop _ hbody | .block hbody => hbody.framesWidth
  | .choose _ _ hbody halternate => by
    obtain ⟨width, hwidth, hnext⟩ := hbody.framesWidth
    obtain ⟨other, hother, hnext'⟩ := halternate.frameWidth
    refine ⟨width + other, ?_, ?_⟩
    · rw [Stmt.frameWidth, hother, hwidth]
      rfl
    · have hexit : (SymbolTable.exitScope _).nextSlot = t.nextSlot + width := hnext
      rw [hnext', hexit, Nat.add_assoc]

theorem StmtsCode.framesWidth {t t' : SymbolTable} {s s' : List ValueType} {stmts : List Stmt}
    {code : List Instr} : StmtsCode f result t s stmts code t' s' →
      ∃ width, framesWidth stmts = .ok width ∧ t'.nextSlot = t.nextSlot + width
  | .nil => ⟨0, rfl, rfl⟩
  | .cons hstmt hstmts => by
    obtain ⟨width, hwidth, hnext⟩ := hstmt.frameWidth
    obtain ⟨rest, hrest, hnext'⟩ := hstmts.framesWidth
    refine ⟨width + rest, ?_, ?_⟩
    · rw [WasmCompiler.framesWidth, hwidth, hrest]
      rfl
    · rw [hnext', hnext, Nat.add_assoc]

end

mutual

/-- Scratch locals are never given back within a function. -/
theorem StmtCode.scratch_grows {t t' : SymbolTable} {s s' : List ValueType} {stmt : Stmt}
    {code : List Instr} : StmtCode f result t s stmt code t' s' → s <+: s'
  | .declare _ | .leave _ => List.prefix_refl _
  | .initial hvalue _ _ | .giveBack hvalue | .assign _ hvalue | .print _ hvalue
  | .evaluate hvalue => hvalue.scratch_grows
  | .setField _ _ hbase hvalue => hbase.scratch_grows.trans hvalue.scratch_grows
  | .when hcondition hbody | .loop hcondition hbody =>
    hcondition.scratch_grows.trans hbody.scratch_grows
  | .choose _ hcondition hbody halternate =>
    (hcondition.scratch_grows.trans hbody.scratch_grows).trans halternate.scratch_grows
  | .block hbody => hbody.scratch_grows

theorem StmtsCode.scratch_grows {t t' : SymbolTable} {s s' : List ValueType} {stmts : List Stmt}
    {code : List Instr} : StmtsCode f result t s stmts code t' s' → s <+: s'
  | .nil => List.prefix_refl _
  | .cons hstmt hstmts => hstmt.scratch_grows.trans hstmts.scratch_grows

end

end Lowering

end WasmCompiler
