import WasmCompiler.Proofs.Lowering.Adequacy
import WasmCompiler.Proofs.Simulation.Expr

/-!
# The two ways to an element of a tuple

The element of a tuple variable is read from the slots of the variable; the element of any other
tuple is read after the whole tuple was put into scratch locals. Both count the machine values
before the element, so both push the same values (`tupleElement_direct_eq_spilled`).

`take_drop_flatMap` is what the two ways have in common: from the start of an element on, as many
machine values as its type has are those of the element. The difference is in the locals afterwards.
The first way leaves them as they are, and the second one has written its scratch locals
(`Written`).
-/

namespace WasmCompiler.Lowering

open Source (Datum)
open Wasm (Environment InLocals Instr Place Store Value ValueType Written)
open Wasm.Machine (Reaches)

variable {env : Environment} {c : LoweringContext} {components : List Datum}
  {elements : List DataType} {i slot : Nat} {d : Datum} {type : DataType} {locals : Array Value}

/-- Code that pushes values, wherever it runs and whatever is on the stack. It leaves the store as
it is, and locals of which `After` holds. -/
def Pushes (env : Environment) (locals : Array Value) (code : List Instr) (values : List Value)
    (After : Array Value → Prop) : Prop :=
  ∀ (p : Place) (rest : List Instr) (stack : List Value) (store : Store),
    ∃ locals', After locals' ∧
      Reaches env (p.machine (code ++ rest) stack locals store)
        (p.machine rest (values.reverse ++ stack) locals' store)

/-! ### Elements among the machine values

Where an element begins, and that the cut is the element. -/

/-- As many machine values stand before an element as its start says. -/
theorem length_flatMap_take (h : List.Forall₂ HasType components elements) (i : Nat) :
    ((components.take i).flatMap (·.values)).length = elementStart elements i := by
  rw [elementStart, ← map_type_flatMap (List.forall₂_take i h), List.length_map]

/-- What an index cuts out of the machine values of a tuple is the element. -/
theorem take_drop_flatMap (h : List.Forall₂ HasType components elements)
    (hd : components[i]? = some d) (htype : elements[i]? = some type) :
    ((components.flatMap (·.values)).drop (elementStart elements i)).take type.width =
      d.values := by
  obtain ⟨hi, rfl⟩ := List.getElem?_eq_some_iff.mp hd
  obtain ⟨hi', rfl⟩ := List.getElem?_eq_some_iff.mp htype
  have hwidth : components[i].values.length = elements[i].width := (h.get hi hi').length
  have hsplit : components.flatMap (·.values) =
      (components.take i).flatMap (·.values) ++
        (components[i].values ++ (components.drop (i + 1)).flatMap (·.values)) := by
    rw [← List.flatMap_cons, ← List.flatMap_append, List.getElem_cons_drop,
      List.take_append_drop]
  rw [hsplit, ← length_flatMap_take h i, List.drop_left, ← hwidth, List.take_left]

/-- The code that reads an element of a tuple in locals. -/
theorem reaches_getElement (h : List.Forall₂ HasType components elements)
    (hd : components[i]? = some d) (htype : elements[i]? = some type)
    (hslots : InLocals locals slot (components.flatMap (·.values))) (p : Place)
    (rest : List Instr) (stack : List Value) (store : Store) :
    Reaches env
      (p.machine (getSlots (slot + elementStart elements i) type.width ++ rest) stack locals store)
      (p.machine rest (d.values.reverse ++ stack) locals store) := by
  have htyped : HasType ⟨.tuple elements, components.flatMap (·.values)⟩ (.tuple elements) :=
    map_type_flatMap h
  rw [← take_drop_flatMap h hd htype]
  exact reaches_element htyped htype hslots

/-! ### The two ways

From slots that were there, and from scratch locals. -/

/-- The slots of the element are read, and no local changes. -/
theorem pushes_component (h : List.Forall₂ HasType components elements)
    (hd : components[i]? = some d) (htype : elements[i]? = some type)
    (hslots : InLocals locals slot (components.flatMap (·.values))) :
    Pushes env locals (getSlots (slot + elementStart elements i) type.width) d.values
      (· = locals) :=
  fun p rest stack store =>
    ⟨locals, rfl, reaches_getElement h hd htype hslots p rest stack store⟩

/-- The whole tuple is pushed, written to scratch locals, and the element read from there. -/
theorem pushes_spilled (h : List.Forall₂ HasType components elements)
    (hd : components[i]? = some d) (htype : elements[i]? = some type)
    (hslots : InLocals locals slot (components.flatMap (·.values))) {scratch : Nat}
    (hsize : scratch + (DataType.machineTypesAll elements).length ≤ locals.size) :
    Pushes env locals
      (getSlots slot (DataType.machineTypesAll elements).length ++
        (setSlots scratch (DataType.machineTypesAll elements).length ++
          getSlots (scratch + elementStart elements i) type.width))
      d.values (Written locals scratch (components.flatMap (·.values))) := by
  intro p rest stack store
  have hwidth : (DataType.machineTypesAll elements).length =
      (components.flatMap (·.values)).length := by
    rw [← map_type_flatMap h, List.length_map]
  rw [hwidth] at hsize ⊢
  simp only [List.append_assoc]
  -- the values are popped in reverse, so each is in the scratch local of its position
  obtain ⟨locals', hwritten, hset⟩ := p.reaches_setSlots
    (getSlots (scratch + elementStart elements i) type.width ++ rest) stack store hsize
  refine ⟨locals', hwritten, (p.reaches_getSlots _ stack store hslots).trans (hset.trans ?_)⟩
  exact reaches_getElement h hd htype hwritten.holds p rest stack store

/-- An integer literal in range is an index. -/
theorem elementIndex?_integer {location : Location} {n : Nat} (h : i < n) :
    (Expr.integer location i).elementIndex? n = some i := by
  simp [Expr.elementIndex?, h]

/-- Where a tuple variable is indexed, its slots are read directly. Pushing the whole variable and
spilling it instead pushes the same values, those of the element, onto the same stack. The one way
leaves all locals as they are, the other all that are not the scratch locals it takes. -/
theorem tupleElement_direct_eq_spilled {name : String} {var : Variable}
    (hvar : c.symbols.lookupVariable? name = some var) (htuple : var.type = .tuple elements)
    (hi : i < elements.length) (location use place : Location) (s : List ValueType) :
    ∃ direct whole spill,
      lowerExpr c (.index location (.identifier use name) (.integer place i)) s =
        .ok (⟨direct, elements[i]⟩, s) ∧
      lowerExpr c (.identifier use name) s = .ok (⟨whole, .tuple elements⟩, s) ∧
      spillTuple c elements i s = .ok (spill, s ++ DataType.machineTypesAll elements) ∧
      ∀ (env : Environment) (locals : Array Value) (components : List Datum),
        List.Forall₂ HasType components elements →
        InLocals locals var.slot (components.flatMap (·.values)) →
        c.scratchBase + (s ++ DataType.machineTypesAll elements).length ≤ locals.size →
        ∃ element, components[i]? = some element ∧
          Pushes env locals direct element.values (· = locals) ∧
          Pushes env locals (whole ++ spill) element.values fun locals' =>
            locals'.size = locals.size ∧
              ∀ k, k < c.scratchBase + s.length ∨
                c.scratchBase + (s ++ DataType.machineTypesAll elements).length ≤ k →
                locals'[k]? = locals[k]? := by
  have htype : elements[i]? = some elements[i] := List.getElem?_eq_getElem hi
  have hposition : (Expr.integer place i).elementIndex? elements.length = some i :=
    elementIndex?_integer hi
  -- a tuple in a variable is found, whatever scratch locals are taken
  have hfound : tupleVariable? c (.identifier use name) s = .ok (some (var, elements), s) := by
    simp only [tupleVariable?, hvar, htuple]
    rfl
  refine ⟨getSlots (var.slot + elementStart elements i) elements[i].width,
    getSlots var.slot (DataType.machineTypesAll elements).length, _, ?_, ?_, spillTuple_eq htype s,
    fun env locals components h hslots hsize => ?_⟩
  · rw [lowerExpr, ScratchM.bind_of_ok hfound]
    simp only [ScratchM.bind_of_ok (elementPosition_eq hposition s), elementType_eq htype]
    rfl
  · rw [lowerExpr, hvar]
    simp only [htuple]
    rfl
  · obtain ⟨element, hd⟩ : ∃ element, components[i]? = some element :=
      ⟨_, List.getElem?_eq_getElem (h.length_eq ▸ hi)⟩
    rw [List.length_append, ← Nat.add_assoc] at hsize ⊢
    refine ⟨element, hd, pushes_component h hd htype hslots, fun p rest stack store => ?_⟩
    -- only the slots that the spilled tuple takes are written
    obtain ⟨locals', hwritten, hrun⟩ := pushes_spilled h hd htype hslots hsize p rest stack store
    refine ⟨locals', ⟨hwritten.size, ?_⟩, hrun⟩
    have hwidth := congrArg List.length (map_type_flatMap h)
    rw [List.length_map] at hwidth
    rw [← hwidth]
    exact hwritten.others

/-- A tuple with an element of no width and one that is a tuple itself. -/
def nestedTuple : List DataType :=
  [.none, .tuple [.f64, .i32], .i32]

/-- A function with the variable `t` of that type in its first slots. -/
def nestedTupleContext : LoweringContext :=
  ⟨{ SymbolTable.empty 8 with scopes := [[⟨"t", .tuple nestedTuple, 0, .declaration⟩]] }, [], 0, 3⟩

/-- The element is a tuple itself, and comes after one that takes no slots. -/
theorem tupleElement_direct_eq_spilled_nested :
    ∃ direct whole spill,
      lowerExpr nestedTupleContext
          (.index ⟨1, 1⟩ (.identifier ⟨1, 1⟩ "t") (.integer ⟨1, 3⟩ 1)) [] =
        .ok (⟨direct, .tuple [.f64, .i32]⟩, []) ∧
      lowerExpr nestedTupleContext (.identifier ⟨1, 1⟩ "t") [] =
        .ok (⟨whole, .tuple nestedTuple⟩, []) ∧
      spillTuple nestedTupleContext nestedTuple 1 [] = .ok (spill, [.f32, .i32, .i32]) ∧
      ∀ (env : Environment) (x : Number.Single) (a b : UInt32),
        Pushes env #[.f32 x, .i32 a, .i32 b, .f32 .zero, .i32 0, .i32 0] direct [.f32 x, .i32 a]
          (· = #[.f32 x, .i32 a, .i32 b, .f32 .zero, .i32 0, .i32 0]) ∧
        Pushes env #[.f32 x, .i32 a, .i32 b, .f32 .zero, .i32 0, .i32 0] (whole ++ spill)
          [.f32 x, .i32 a] fun locals' =>
            locals'[0]? = some (.f32 x) ∧ locals'[1]? = some (.i32 a) ∧
              locals'[2]? = some (.i32 b) := by
  have hvar : nestedTupleContext.symbols.lookupVariable? "t" =
      some ⟨"t", .tuple nestedTuple, 0, .declaration⟩ := rfl
  have hindex : 1 < nestedTuple.length := by decide
  obtain ⟨direct, whole, spill, hdirect, hwhole, hspill, hpushes⟩ :=
    tupleElement_direct_eq_spilled hvar rfl hindex ⟨1, 1⟩ ⟨1, 1⟩ ⟨1, 3⟩ []
  refine ⟨direct, whole, spill, hdirect, hwhole, hspill, fun env x a b => ?_⟩
  have htyped : List.Forall₂ HasType
      [⟨.none, []⟩, ⟨.tuple [.f64, .i32], [.f32 x, .i32 a]⟩, ⟨.i32, [.i32 b]⟩] nestedTuple :=
    .cons rfl (.cons rfl (.cons rfl .nil))
  have hslots : InLocals #[.f32 x, .i32 a, .i32 b, .f32 .zero, .i32 0, .i32 0] 0
      [.f32 x, .i32 a, .i32 b] := by
    intro k v hk
    match k, hk with
    | 0, hk | 1, hk | 2, hk => exact hk
  obtain ⟨element, helement, hone, hother⟩ := hpushes env _ _ htyped hslots (Nat.le_refl 6)
  obtain rfl := Option.some.inj helement
  refine ⟨hone, fun p rest stack store => ?_⟩
  obtain ⟨locals', ⟨-, hkept⟩, hrun⟩ := hother p rest stack store
  exact ⟨locals', ⟨hkept 0 (.inl (by decide)), hkept 1 (.inl (by decide)),
    hkept 2 (.inl (by decide))⟩, hrun⟩

end WasmCompiler.Lowering
