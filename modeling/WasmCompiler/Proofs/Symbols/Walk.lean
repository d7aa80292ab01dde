import WasmCompiler.Proofs.Lowering.Layout

/-!
# Walks through a function

All that the statements of a function do to a symbol table is to define variables and to open and
close scopes. `SymbolTable.Walk` says that one table leads to another in this way. What a walk keeps
is proved here once, for every pass that walks: the globals, the scopes around the innermost one,
what was declared before, and that each variable has slots of its types.

* `Walk.sameGlobals`, `Walk.scopes_tail` and `Walk.declared_prefix` are what stays.
* `Walk.allotted` is what grows: the slots in use are those of the parameters and of the declared
  variables, whether or not their scope is still open.
-/

namespace WasmCompiler

open Wasm (ValueType)
open Lowering (declaredVariable)

/-- The slots of a variable have its machine types. -/
def Variable.Occupies (var : Variable) (types : List ValueType) : Prop :=
  ∀ k type, var.type.machineTypes[k]? = some type → types[var.slot + k]? = some type

/-- More slots behind do not change the ones before. -/
theorem Variable.Occupies.append {var : Variable} {types : List ValueType}
    (h : var.Occupies types) (more : List ValueType) : var.Occupies (types ++ more) := by
  intro k type hk
  have hfound := h k type hk
  have hlt : var.slot + k < types.length := (List.getElem?_eq_some_iff.mp hfound).1
  rw [List.getElem?_append_left hlt, hfound]

/-- A variable that is given the next slots has those that its types fill. -/
theorem Variable.occupies_append {var : Variable} {types : List ValueType}
    (hslot : var.slot = types.length) : var.Occupies (types ++ var.type.machineTypes) := by
  intro k type hk
  rw [hslot, List.getElem?_append_right (by omega), Nat.add_sub_cancel_left, hk]

namespace SymbolTable

/-- A table leads to another by defining variables and by opening and closing scopes. -/
inductive Walk : SymbolTable → SymbolTable → Prop
  | done {t} : Walk t t
  | define {t t'} {name : String} {type : DataType}
    (hrest : Walk (t.withVariable (declaredVariable t name type)) t') : Walk t t'
  | scope {t u t'} (hinner : Walk t.enterScope u) (hrest : Walk u.exitScope t') : Walk t t'

variable {t t' : SymbolTable}

theorem Walk.trans {t₁ t₂ t₃ : SymbolTable} (h : t₁.Walk t₂) (h' : t₂.Walk t₃) : t₁.Walk t₃ := by
  induction h with
  | done => exact h'
  | define _ ih => exact .define (ih h')
  | scope hinner _ _ ih => exact .scope hinner (ih h')

/-- A walk in a scope of its own is a step of a walk. -/
theorem Walk.inner {u : SymbolTable} (h : t.enterScope.Walk u) : t.Walk u.exitScope :=
  .scope h .done

/-- No step touches functions, structs or strings. -/
theorem Walk.sameGlobals (h : t.Walk t') : t.SameGlobals t' := by
  induction h with
  | done => exact .refl _
  | define _ ih => exact ⟨ih.functions, ih.structs, ih.strings, ih.exportsMemory⟩
  | scope _ _ ihinner ih => exact ihinner.exitScope.trans ih

/-- Closing a scope does not take a declaration back. -/
theorem Walk.declared_prefix (h : t.Walk t') : t.declared <+: t'.declared := by
  induction h with
  | done => exact List.prefix_refl _
  | define _ ih => exact (List.prefix_append _ _).trans ih
  | scope _ _ ihinner ih => exact ihinner.trans ih

/-- Closing a scope does not give its slots back. -/
theorem Walk.nextSlot_le (h : t.Walk t') : t.nextSlot ≤ t'.nextSlot := by
  induction h with
  | done => exact Nat.le_refl _
  | define _ ih => exact Nat.le_trans (Nat.le_add_right _ _) ih
  | scope _ _ ihinner ih => exact Nat.le_trans ihinner ih

/-- The scopes around the innermost one stay as they are. -/
theorem Walk.scopes_tail (h : t.Walk t') : t'.scopes.tail = t.scopes.tail := by
  induction h with
  | done => rfl
  | define _ ih => exact ih
  | scope hinner _ ihinner ih =>
    -- the tail of the scopes inside is what there was before
    have hclosed : (SymbolTable.exitScope _).scopes = _ := ihinner
    rw [ih, hclosed]
    rfl

/-- A walk gives slots to declared variables and to no others. -/
theorem Walk.layout {params : List ValueType} (h : t.Walk t') (ht : t.Layout params) :
    t'.Layout params := by
  induction h with
  | done => exact ht
  | @define t t' name type _ ih =>
    exact ih (ht.withVariable rfl (Lowering.slotTypes_declared t name type))
  | scope _ _ ihinner ih => exact ih (ihinner ht.enterScope).exitScope

/-- The slots in use are those of the parameters and of the declared variables, and each of the
latter has slots of its types. -/
structure Allotted (params : List ValueType) (t : SymbolTable) : Prop where
  nextSlot : t.nextSlot = (t.slotTypes params).length
  declared : ∀ var ∈ t.declared, var.Occupies (t.slotTypes params)

/-- By induction over the walk: a variable gets the slots behind all others, which then have its
types. -/
theorem Walk.allotted {params : List ValueType} (h : t.Walk t') (ht : t.Allotted params) :
    t'.Allotted params := by
  induction h with
  | done => exact ht
  | @define t t' name type _ ih =>
    -- a declared variable takes the slots behind all others
    have htypes : (t.withVariable (declaredVariable t name type)).slotTypes params =
        t.slotTypes params ++ type.machineTypes := Lowering.slotTypes_declared t name type
    refine ih ⟨?_, ?_⟩
    · rw [htypes, List.length_append, ← ht.nextSlot]
      rfl
    · intro var hvar
      rw [htypes]
      have hvar : var ∈ t.declared ++ [declaredVariable t name type] := hvar
      rcases List.mem_append.mp hvar with hvar | hvar
      · exact (ht.declared var hvar).append _
      · obtain rfl := List.mem_singleton.mp hvar
        exact Variable.occupies_append ht.nextSlot
  | scope _ _ ihinner ih => exact ih ⟨(ihinner ⟨ht.nextSlot, ht.declared⟩).nextSlot,
      (ihinner ⟨ht.nextSlot, ht.declared⟩).declared⟩

end SymbolTable

end WasmCompiler
