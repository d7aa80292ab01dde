import WasmCompiler.Proofs.Tree.Parts
import WasmCompiler.Proofs.Typing.Rules

/-!
# Checking and lowering agree on types

Checking and lowering compute the type of an expression each in its own way. The two differ in
one place: checking takes the element type of an array from its first item, lowering from its last,
and to lowering an array literal without items is one of integers. So they disagree on a literal
that ends in `[]` unless its items are arrays of integers, and this is all there is:
`typesAgree_iff` states it for every expression, in every scope.

* `typesAgree_array`, `typesAgree_tuple` and the lemmas after them treat one form each: if the two
  agree on the parts, they agree on the whole.
* `typesAgree_of_emptyEndFits` puts them together, by induction over the expression.
* The other direction of `typesAgree_iff` needs no induction: `lowerExpr_endsInEmptyArray` computes
  the type that lowering gives such a literal.
-/

namespace WasmCompiler

open Lowering

/-- Lowering gives an expression the type that checking gives it, whenever both do. -/
def Expr.TypesAgree (c : LoweringContext) (e : Expr) : Prop :=
  ∀ type scratch l scratch', typeOf c.symbols e = .ok type →
    lowerExpr c e scratch = .ok (l, scratch') → l.type = type

/-- If an expression is an array literal that ends in `[]`, its items are arrays of integers. -/
def Expr.EmptyEndFits (c : LoweringContext) (e : Expr) : Prop :=
  e.endsInEmptyArray → ∀ type scratch l scratch', typeOf c.symbols e = .ok type →
    lowerExpr c e scratch = .ok (l, scratch') → type = .array (.array .i32)

variable {c : LoweringContext} {scratch scratch' : List Wasm.ValueType}

-- Every lemma below opens these, so their equations are made here once.
attribute [local simp] lowerExpr lowerItems lowerElements

/-! ### Array literals

The one form where the two go different ways. -/

/-- The literal `[]`, at any place. -/
theorem Expr.isEmptyArray_iff {e : Expr} :
    e.isEmptyArray ↔ ∃ location, e = .array location [] := by
  unfold Expr.isEmptyArray
  split
  · simp
  · rename_i h
    simp only [Bool.false_eq_true, false_iff, not_exists]
    intro location he
    exact h location he

/-- An array literal without items is lowered as one of integers. -/
theorem lowerExpr_isEmptyArray {e : Expr} {l : Lowered} (he : e.isEmptyArray)
    (hlower : lowerExpr c e scratch = .ok (l, scratch')) : l.type = .array .i32 := by
  obtain ⟨location, rfl⟩ := Expr.isEmptyArray_iff.mp he
  simp only [lowerExpr, lowerItems, ScratchM.bind_eq_ok_iff, allocScratch_apply,
    ScratchM.pure_apply, Except.ok.injEq, Prod.mk.injEq] at hlower
  obtain ⟨-, -, -, -, -, ⟨rfl, -⟩, rfl, -⟩ := hlower
  rfl

/-- The element type of a lowered array is that of its last item. -/
theorem lowerItems_last {base cell : Nat} {element last : DataType} {items : List Expr}
    {code : List Wasm.Instr}
    (hlower : lowerItems c base cell element items scratch = .ok ((code, last), scratch'))
    {item : Expr} (hitem : items.getLast? = some item) :
    ∃ before l after, lowerExpr c item before = .ok (l, after) ∧ last = l.type := by
  induction items generalizing cell element scratch code with
  | nil => cases hitem
  | cons first rest ih =>
    simp only [lowerItems, ScratchM.bind_eq_ok_iff, ScratchM.pure_apply, Except.ok.injEq,
      Prod.mk.injEq] at hlower
    obtain ⟨l, after, hfirst, ⟨restCode, restLast⟩, final, hrest, ⟨-, rfl⟩, rfl⟩ := hlower
    -- the type of the last item is what the lowering of the items ends with
    cases rest with
    | nil =>
      obtain rfl : first = item := by simpa using hitem
      simp only [lowerItems, ScratchM.pure_apply, Except.ok.injEq, Prod.mk.injEq] at hrest
      exact ⟨scratch, l, after, hfirst, hrest.1.2.symm⟩
    | cons second rest => exact ih hrest (by simpa using hitem)

/-- On an array literal the two agree if they agree on its last item, or if that is an array
without items and the literal is one of arrays of integers. -/
theorem typesAgree_array {location : Location} {items : List Expr}
    (hitems : ∀ item ∈ items, item.TypesAgree c)
    (hend : (Expr.array location items).EmptyEndFits c) :
    (Expr.array location items).TypesAgree c := by
  intro type scratch l scratch' htype hlower
  have hfits := fun h => hend h type scratch l scratch' htype hlower
  obtain ⟨first, rest, element, rfl, hfirst, -, hrest, rfl⟩ := typeOf_array_iff.mp htype
  simp only [lowerExpr, ScratchM.bind_eq_ok_iff, ScratchM.pure_apply, Except.ok.injEq,
    Prod.mk.injEq] at hlower
  obtain ⟨base, after, -, ⟨code, last⟩, final, hlowered, rfl, -⟩ := hlower
  -- lowering takes the type of the last item, checking that of the first
  obtain ⟨item, hitem⟩ : ∃ item, (first :: rest).getLast? = some item :=
    ⟨_, List.getLast?_eq_some_getLast (List.cons_ne_nil _ _)⟩
  obtain ⟨before, l, afterItem, hlast, rfl⟩ := lowerItems_last hlowered hitem
  have hmem : item ∈ first :: rest := List.mem_of_getLast? hitem
  have htyped : item.isEmptyArray ∨ typeOf c.symbols item = .ok element := by
    rcases List.mem_cons.mp hmem with rfl | hmem
    · exact .inr hfirst
    · exact (requireType_eq_ok_iff.mp (checkItems_eq_ok_iff.mp hrest item hmem)).imp (·.1) id
  show DataType.array l.type = .array element
  rcases htyped with hempty | htyped
  · -- both sides are known
    rw [lowerExpr_isEmptyArray hempty hlast]
    exact (hfits (by simp [Expr.endsInEmptyArray, hitem, hempty])).symm
  · rw [hitems item hmem element before l afterItem htyped hlast]

/-- A literal that ends in `[]` is lowered as one of arrays of integers. -/
theorem lowerExpr_endsInEmptyArray {e : Expr} {l : Lowered} (he : e.endsInEmptyArray)
    (hlower : lowerExpr c e scratch = .ok (l, scratch')) : l.type = .array (.array .i32) := by
  unfold Expr.endsInEmptyArray at he
  split at he
  · rename_i location items
    cases hitem : items.getLast? with
    | none =>
      rw [hitem] at he
      cases he
    | some item =>
      rw [hitem] at he
      simp only [lowerExpr, ScratchM.bind_eq_ok_iff, ScratchM.pure_apply, Except.ok.injEq,
        Prod.mk.injEq] at hlower
      obtain ⟨base, after, -, ⟨code, last⟩, final, hlowered, rfl, -⟩ := hlower
      obtain ⟨before, l, afterItem, hlast, rfl⟩ := lowerItems_last hlowered hitem
      show DataType.array l.type = _
      rw [lowerExpr_isEmptyArray he hlast]
  · cases he

/-! ### The other expressions

Everywhere else both compute the type from the types of the parts, by the same function. -/

/-- The elements of a tuple are lowered to the types that they are checked to have. -/
theorem lowerElements_types {items : List Expr} (hitems : ∀ item ∈ items, item.TypesAgree c)
    {types types' : List DataType} {code : List Wasm.Instr}
    {scratch scratch' : List Wasm.ValueType}
    (htypes : elementTypes c.symbols items = .ok types)
    (hlower : lowerElements c items scratch = .ok ((code, types'), scratch')) :
    types' = types := by
  induction items generalizing types types' code scratch scratch' with
  | nil =>
    simp only [lowerElements, ScratchM.pure_apply, Except.ok.injEq, Prod.mk.injEq] at hlower
    rw [← hlower.1.2]
    exact Except.ok.inj htypes
  | cons item items ih =>
    obtain ⟨type, others, htype, -, hothers, rfl⟩ := elementTypes_cons_iff.mp htypes
    simp only [lowerElements, ScratchM.bind_eq_ok_iff, ScratchM.pure_apply, Except.ok.injEq,
      Prod.mk.injEq] at hlower
    obtain ⟨l, after, hitem, ⟨restCode, restTypes⟩, final, hrest, ⟨-, rfl⟩, -⟩ := hlower
    rw [List.forall_mem_cons] at hitems
    rw [hitems.1 _ _ _ _ htype hitem, ih hitems.2 hothers hrest]

/-- The type of a tuple is made of those of its elements in both. -/
theorem typesAgree_tuple {location : Location} {items : List Expr}
    (hitems : ∀ item ∈ items, item.TypesAgree c) :
    (Expr.tuple location items).TypesAgree c := by
  intro type scratch l scratch' htype hlower
  obtain ⟨types, htypes, rfl⟩ := typeOf_tuple_iff.mp htype
  simp only [lowerExpr, ScratchM.bind_eq_ok_iff, ScratchM.pure_apply, Except.ok.injEq,
    Prod.mk.injEq] at hlower
  obtain ⟨⟨code, types'⟩, final, hlowered, rfl, -⟩ := hlower
  show DataType.tuple types' = .tuple types
  rw [lowerElements_types hitems htypes hlowered]

/-- Both ask the operator for the result of the types of its operands. -/
theorem typesAgree_binary {location : Location} {op : BinaryOp} {left right : Expr}
    (hleft : left.TypesAgree c) (hright : right.TypesAgree c) :
    (Expr.binary location op left right).TypesAgree c := by
  intro type scratch l scratch' htype hlower
  obtain ⟨tl, tr, htl, htr, hresult⟩ := typeOf_binary_iff.mp htype
  -- the logical operators give integers; the others ask the same table on both sides
  by_cases hlogical : op.isLogical
  · have hi32 : type = .i32 := by
      cases op <;> simp [BinaryOp.isLogical] at hlogical <;>
        simp [BinaryOp.result?, BinaryOp.isArithmetic, BinaryOp.isComparison] at hresult <;>
        exact hresult.2.symm
    subst hi32
    cases op <;> simp [BinaryOp.isLogical] at hlogical <;>
      simp only [lowerExpr, ScratchM.bind_eq_ok_iff, ScratchM.pure_apply, Except.ok.injEq,
        Prod.mk.injEq] at hlower <;>
      obtain ⟨_, _, _, _, _, _, rfl, -⟩ := hlower <;> rfl
  · rw [lowerExpr] at hlower
    · simp only [ScratchM.bind_eq_ok_iff] at hlower
      obtain ⟨ll, after, hll, lr, final, hlr, hlower⟩ := hlower
      rw [hleft _ _ _ _ htl hll, hright _ _ _ _ htr hlr, hresult] at hlower
      simp only [ScratchM.pure_apply, Except.ok.injEq, Prod.mk.injEq] at hlower
      rw [← hlower.1]
    all_goals
      rintro rfl
      exact hlogical rfl

/-- The result of a call is written in the signature, so the arguments do not matter here. -/
theorem typesAgree_call {location : Location} {callee : String} {args : List Expr} :
    (Expr.call location callee args).TypesAgree c := by
  intro type scratch l scratch' htype hlower
  obtain ⟨signature, hcallee, -, -, rfl⟩ := typeOf_call_iff.mp htype
  simp only [lowerExpr, callResult, hcallee, ScratchM.bind_eq_ok_iff, ScratchM.pure_apply,
    Except.ok.injEq, Prod.mk.injEq] at hlower
  obtain ⟨_, _, -, _, _, -, _, _, ⟨rfl, -⟩, rfl, -⟩ := hlower
  rfl

/-- Both look the field up in the type of the base. -/
theorem typesAgree_member {location : Location} {base : Expr} {name : String}
    (hbase : base.TypesAgree c) : (Expr.member location base name).TypesAgree c := by
  intro type scratch l scratch' htype hlower
  obtain ⟨struct, fields, i, htb, hfield⟩ := typeOf_member_iff.mp htype
  simp only [lowerExpr, ScratchM.bind_eq_ok_iff] at hlower
  obtain ⟨lb, after, hlb, ⟨j, found⟩, final, hfound, hlower⟩ := hlower
  rw [hbase _ _ _ _ htb hlb] at hfound
  simp only [fieldOf, DataType.field?, hfield, ScratchM.pure_apply, Except.ok.injEq,
    Prod.mk.injEq] at hfound hlower
  rw [← hlower.1, ← hfound.1.2]

/-- The element that a tuple is lowered to is the one that checking finds. -/
theorem elementType_eq {elements : List DataType} {i : Nat} {type : DataType}
    (h : elements[i]? = some type) : elementType elements i = type := by
  simp [elementType, List.getD, h]

/-- Only the name of a tuple variable is taken for one. -/
theorem tupleVariable?_eq_some {base : Expr} {var : Variable} {elements : List DataType}
    (h : tupleVariable? c base scratch = .ok (some (var, elements), scratch')) :
    typeOf c.symbols base = .ok (.tuple elements) := by
  cases base with
  | identifier location name =>
    simp only [tupleVariable?] at h
    cases hvar : c.symbols.lookupVariable? name with
    | none =>
      simp only [hvar] at h
      cases h
    | some found =>
      -- only a variable whose type is a tuple is found
      cases htuple : found.type with
      | tuple others =>
        simp only [hvar, htuple, ScratchM.pure_apply, Except.ok.injEq, Prod.mk.injEq,
          Option.some.injEq] at h
        obtain ⟨⟨rfl, rfl⟩, -⟩ := h
        exact typeOf_identifier_iff.mpr ⟨found, hvar, htuple⟩
      | _ =>
        simp only [hvar, htuple] at h
        cases h
  | _ => cases h

/-- The position of an element is the literal index. -/
theorem elementPosition_eq_ok {elements : List DataType} {index : Expr} {i : Nat}
    (h : elementPosition elements index scratch = .ok (i, scratch')) :
    index.elementIndex? elements.length = some i := by
  unfold elementPosition at h
  cases hj : index.elementIndex? elements.length with
  | none =>
    rw [hj] at h
    cases h
  | some j =>
    rw [hj] at h
    obtain ⟨rfl, -⟩ := Prod.mk.inj (Except.ok.inj h)
    rfl

/-- The base says whether the index goes into an array or into a tuple, and the literal index is
read in the same way. -/
theorem typesAgree_index {location : Location} {base index : Expr} (hbase : base.TypesAgree c) :
    (Expr.index location base index).TypesAgree c := by
  intro type scratch l scratch' htype hlower
  simp only [lowerExpr, ScratchM.bind_eq_ok_iff] at hlower
  obtain ⟨found?, after, hvariable, hlower⟩ := hlower
  match found?, hvariable with
  | some (var, elements), hvariable =>
    -- the variable is a tuple on both sides
    simp only [ScratchM.bind_eq_ok_iff, ScratchM.pure_apply, Except.ok.injEq,
      Prod.mk.injEq] at hlower
    obtain ⟨i, final, hi, rfl, -⟩ := hlower
    have hi := elementPosition_eq_ok hi
    have htuple := tupleVariable?_eq_some hvariable
    rcases typeOf_index_iff.mp htype with ⟨harray, -⟩ | ⟨elements', j, htuple', hj, htype⟩
    · simp [htuple] at harray
    · rw [htuple] at htuple'
      obtain rfl := DataType.tuple.inj (Except.ok.inj htuple')
      rw [hi] at hj
      obtain rfl := Option.some.inj hj
      exact elementType_eq htype
  | none, _ =>
    simp only [ScratchM.bind_eq_ok_iff] at hlower
    obtain ⟨lb, afterBase, hlb, hlower⟩ := hlower
    rcases typeOf_index_iff.mp htype with ⟨harray, -⟩ | ⟨elements, j, htuple, hj, htype⟩
    · simp only [hbase _ _ _ _ harray hlb, ScratchM.bind_eq_ok_iff, ScratchM.pure_apply,
        Except.ok.injEq, Prod.mk.injEq] at hlower
      obtain ⟨_, _, -, rfl, -⟩ := hlower
      rfl
    · simp only [hbase _ _ _ _ htuple hlb, ScratchM.bind_eq_ok_iff, ScratchM.pure_apply,
        Except.ok.injEq, Prod.mk.injEq] at hlower
      obtain ⟨i, _, hi, _, _, -, rfl, -⟩ := hlower
      have hi := elementPosition_eq_ok hi
      rw [hi] at hj
      obtain rfl := Option.some.inj hj
      exact elementType_eq htype

/-! ### All expressions

The condition is asked of every part, since agreement on an expression goes up from its parts. -/

mutual

/-- By induction over the expression, one lemma for each form. -/
theorem typesAgree_of_emptyEndFits :
    (e : Expr) → (∀ s ∈ e.parts, s.EmptyEndFits c) → e.TypesAgree c
  | .integer .., _ => by
    intro type scratch l scratch' htype hlower
    simp only [lowerExpr, ScratchM.bind_eq_ok_iff, ScratchM.pure_apply, Except.ok.injEq,
      Prod.mk.injEq] at hlower
    obtain ⟨_, _, -, rfl, -⟩ := hlower
    exact Except.ok.inj htype
  | .float .., _ => by
    intro type scratch l scratch' htype hlower
    obtain ⟨rfl, -⟩ := Prod.mk.inj (Except.ok.inj hlower)
    exact Except.ok.inj htype
  | .string _ text, _ => by
    intro type scratch l scratch' htype hlower
    cases hoffset : c.symbols.stringOffset? text with
    | none =>
      simp only [lowerExpr, hoffset] at hlower
      cases hlower
    | some offset =>
      simp only [lowerExpr, hoffset] at hlower
      obtain ⟨rfl, -⟩ := Prod.mk.inj (Except.ok.inj hlower)
      exact Except.ok.inj htype
  | .identifier .., _ => by
    intro type scratch l scratch' htype hlower
    obtain ⟨var, hvar, rfl⟩ := typeOf_identifier_iff.mp htype
    simp only [lowerExpr, hvar] at hlower
    obtain ⟨rfl, -⟩ := Prod.mk.inj (Except.ok.inj hlower)
    rfl
  | .unary location op operand, h => by
    rw [Expr.parts, List.forall_mem_cons] at h
    -- only a negated operand has a type, which is its own
    have hoperand := typesAgree_of_emptyEndFits operand h.2
    intro type scratch l scratch' htype hlower
    obtain ⟨rfl, htype, -⟩ := typeOf_unary_iff.mp htype
    simp only [lowerExpr, ScratchM.bind_eq_ok_iff, ScratchM.pure_apply, Except.ok.injEq,
      Prod.mk.injEq] at hlower
    obtain ⟨lo, _, hlo, rfl, -⟩ := hlower
    show lo.type = type
    exact hoperand _ _ _ _ htype hlo
  | .binary location op left right, h => by
    rw [Expr.parts, List.forall_mem_cons, List.forall_mem_append] at h
    exact typesAgree_binary (typesAgree_of_emptyEndFits left h.2.1)
      (typesAgree_of_emptyEndFits right h.2.2)
  | .call .., _ => typesAgree_call
  | .member location base name, h => by
    rw [Expr.parts, List.forall_mem_cons] at h
    exact typesAgree_member (typesAgree_of_emptyEndFits base h.2)
  | .index location base index, h => by
    rw [Expr.parts, List.forall_mem_cons, List.forall_mem_append] at h
    exact typesAgree_index (typesAgree_of_emptyEndFits base h.2.1)
  | .array location items, h => by
    rw [Expr.parts, List.forall_mem_cons] at h
    exact typesAgree_array (typesAgree_of_emptyEndFits_all items h.2) h.1
  | .tuple location items, h => by
    rw [Expr.parts, List.forall_mem_cons] at h
    exact typesAgree_tuple (typesAgree_of_emptyEndFits_all items h.2)

theorem typesAgree_of_emptyEndFits_all :
    (es : List Expr) → (∀ s ∈ Expr.partsAll es, s.EmptyEndFits c) → ∀ e ∈ es, e.TypesAgree c
  | [], _ => by simp
  | e :: es, h => by
    rw [Expr.partsAll, List.forall_mem_append] at h
    rw [List.forall_mem_cons]
    exact ⟨typesAgree_of_emptyEndFits e h.1, typesAgree_of_emptyEndFits_all es h.2⟩

end

/-- Checking and lowering agree on the types of an expression and of everything in it exactly if
each array literal in it that ends in `[]` is one of arrays of integers. -/
theorem typesAgree_iff (c : LoweringContext) (e : Expr) :
    (∀ s ∈ e.parts, s.TypesAgree c) ↔ ∀ s ∈ e.parts, s.EmptyEndFits c := by
  constructor
  · intro h s hs hempty type scratch l scratch' htype hlower
    rw [← h s hs type scratch l scratch' htype hlower]
    exact lowerExpr_endsInEmptyArray hempty hlower
  · intro h s hs
    exact typesAgree_of_emptyEndFits s fun r hr => h r (Expr.parts_trans e hs hr)

end WasmCompiler
