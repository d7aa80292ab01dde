import WasmCompiler.Proofs.Typing.Rules

/-!
# Types whose values fit memory cells

Array elements and struct fields occupy one cell each. A type is well-formed if that is so
throughout it (`DataType.WellFormed`): annotations are resolved to such types, a table that was
built by declarations holds such types only, and `typeOf` gives no others.

The machine type of a cell is chosen by the data type, floats for `f64` and integers for everything
else. That is the machine type of the value except for a tuple that consists of one float; where
no such tuple occurs, a type that fits a cell is `Storable`.

`DataType.throughout_array_iff` and its kin say what a property of all types in a type comes to for
each form. Everything about well-formed types and about types without float tuples is a case of
them.
-/

namespace WasmCompiler

open Wasm (ValueType)

namespace DataType

/-! ### Types in types

A struct type carries the types of its fields, so the types in a type are found without a table. -/

mutual

/-- A type and all types in it. -/
def parts : DataType → List DataType
  | .primitive p => [.primitive p]
  | .struct name fields => .struct name fields :: partsFields fields
  | .array element => .array element :: element.parts
  | .tuple elements => .tuple elements :: partsAll elements

/-- The types in some types. -/
def partsAll : List DataType → List DataType
  | [] => []
  | t :: ts => t.parts ++ partsAll ts

/-- The types in some fields. -/
def partsFields : List (String × DataType) → List DataType
  | [] => []
  | (_, t) :: fs => t.parts ++ partsFields fs

end

section Parts

variable {P : DataType → Prop}

/-- What all types in some types have, each of these types has throughout it. -/
theorem forall_mem_partsAll_iff {ts : List DataType} :
    (∀ s ∈ partsAll ts, P s) ↔ ∀ t ∈ ts, ∀ s ∈ t.parts, P s := by
  induction ts with
  | nil => simp [partsAll]
  | cons t ts ih => rw [partsAll, List.forall_mem_append, List.forall_mem_cons, ih]

theorem forall_mem_partsFields_iff {fs : List (String × DataType)} :
    (∀ s ∈ partsFields fs, P s) ↔ ∀ f ∈ fs, ∀ s ∈ f.2.parts, P s := by
  induction fs with
  | nil => simp [partsFields]
  | cons f fs ih => rw [partsFields, List.forall_mem_append, List.forall_mem_cons, ih]

theorem self_mem_parts (t : DataType) : t ∈ t.parts := by
  cases t <;> simp [parts]

/-- All types in a type have a property. -/
def Throughout (P : DataType → Prop) (t : DataType) : Prop :=
  ∀ s ∈ t.parts, P s

/-- A weaker property holds wherever the stronger one does. -/
theorem Throughout.mono {Q : DataType → Prop} {t : DataType} (h : t.Throughout P)
    (hPQ : ∀ s, P s → Q s) : t.Throughout Q :=
  fun s hs => hPQ s (h s hs)

theorem throughout_primitive_iff {p : Primitive} :
    (DataType.primitive p).Throughout P ↔ P (.primitive p) :=
  List.forall_mem_singleton

/-- Throughout an array type is for the array and throughout its element. -/
theorem throughout_array_iff {element : DataType} :
    (DataType.array element).Throughout P ↔ P (.array element) ∧ element.Throughout P := by
  rw [Throughout, parts, List.forall_mem_cons]
  rfl

/-- Throughout a struct type is for the struct and throughout the type of each field. -/
theorem throughout_struct_iff {name : String} {fields : List (String × DataType)} :
    (DataType.struct name fields).Throughout P ↔
      P (.struct name fields) ∧ ∀ f ∈ fields, f.2.Throughout P := by
  rw [Throughout, parts, List.forall_mem_cons, forall_mem_partsFields_iff]
  rfl

/-- Throughout a tuple type is for the tuple and throughout each of its elements. -/
theorem throughout_tuple_iff {elements : List DataType} :
    (DataType.tuple elements).Throughout P ↔
      P (.tuple elements) ∧ ∀ t ∈ elements, t.Throughout P := by
  rw [Throughout, parts, List.forall_mem_cons, forall_mem_partsAll_iff]
  rfl

/-- A property that types have which no declaration introduces: primitive types, arrays whose
elements fit a cell, and tuples. -/
structure Builtin (P : DataType → Prop) : Prop where
  primitive : ∀ p, P (.primitive p)
  array : ∀ element, element.fitsCell → P (.array element)
  tuple : ∀ elements, P (.tuple elements)

/-- There is nothing inside a primitive type. -/
theorem Builtin.throughout (hP : Builtin P) (p : Primitive) :
    (DataType.primitive p).Throughout P :=
  throughout_primitive_iff.mpr (hP.primitive p)

end Parts

/-! ### Well-formed types

This is what a declaration promises of the types that it introduces. -/

/-- A type fits a cell if its value is one machine value. -/
theorem fitsCell_iff {t : DataType} : t.fitsCell ↔ t.machineTypes.length = 1 := by
  simp [fitsCell, width]

/-- Whether the elements or fields of a type fit a cell each. -/
def CellsFit : DataType → Prop
  | .array element => element.fitsCell
  | .struct _ fields => ∀ field ∈ fields, field.2.fitsCell
  | _ => True

/-- Whether all elements and fields in a type fit a cell. -/
def WellFormed (t : DataType) : Prop :=
  ∀ s ∈ t.parts, s.CellsFit

/-- Whether a type is a tuple that consists of one float. -/
def isFloatTuple : DataType → Bool
  | .tuple elements => machineTypesAll elements = [.f32]
  | _ => false

/-- Whether no tuple in a type consists of one float. -/
def AvoidsFloatTuples (t : DataType) : Prop :=
  ∀ s ∈ t.parts, s.isFloatTuple = false

/-- No annotation of an array gets through with elements that do not fit a cell, so arrays may be
built in. -/
theorem builtin_cellsFit : Builtin CellsFit :=
  ⟨fun _ => trivial, fun _ hfits => hfits, fun _ => trivial⟩

/-- An array type is well-formed if its elements fit a cell and are well-formed. -/
theorem wellFormed_array_iff {element : DataType} :
    (DataType.array element).WellFormed ↔ element.fitsCell ∧ element.WellFormed :=
  throughout_array_iff

/-- A struct type is well-formed if its fields fit a cell each and are well-formed. -/
theorem wellFormed_struct_iff {name : String} {fields : List (String × DataType)} :
    (DataType.struct name fields).WellFormed ↔
      ∀ f ∈ fields, f.2.fitsCell ∧ f.2.WellFormed := by
  refine throughout_struct_iff.trans ?_
  exact ⟨fun h f hf => ⟨h.1 f hf, h.2 f hf⟩,
    fun h => ⟨fun f hf => (h f hf).1, fun f hf => (h f hf).2⟩⟩

/-- A field that is found is one of the fields, at its position. -/
theorem lookupField_eq_some {name : String} {fields : List (String × DataType)} {i : Nat}
    {type : DataType} (h : lookupField name fields = some (i, type)) :
    fields[i]? = some (name, type) := by
  induction fields generalizing i with
  | nil => cases h
  | cons field fields ih =>
    obtain ⟨n, t⟩ := field
    rw [lookupField] at h
    split at h
    · rename_i hname
      obtain ⟨rfl, rfl⟩ := Prod.mk.inj (Option.some.inj h)
      rw [hname]
      rfl
    · obtain ⟨⟨j, t'⟩, hfound, heq⟩ := Option.map_eq_some_iff.mp h
      obtain ⟨rfl, rfl⟩ := Prod.mk.inj heq
      exact ih hfound

/-- What holds throughout a struct holds throughout the type of a field that is found in it. -/
theorem Throughout.field {P : DataType → Prop} {struct name : String}
    {fields : List (String × DataType)} {i : Nat} {type : DataType}
    (h : (DataType.struct struct fields).Throughout P)
    (hfield : lookupField name fields = some (i, type)) : type.Throughout P :=
  (throughout_struct_iff.mp h).2 (name, type) (List.mem_of_getElem? (lookupField_eq_some hfield))

/-- A field of a well-formed struct fits a cell. -/
theorem WellFormed.field {struct name : String} {fields : List (String × DataType)} {i : Nat}
    {type : DataType} (h : (DataType.struct struct fields).WellFormed)
    (hfield : lookupField name fields = some (i, type)) : type.fitsCell ∧ type.WellFormed :=
  wellFormed_struct_iff.mp h (name, type) (List.mem_of_getElem? (lookupField_eq_some hfield))

/-! ### Storable types

Loading and storing a cell goes by its `Lowering.cellType`, which is the machine type of the value
for these types. -/

/-- Whether a value of the type is one machine value of the type that cells have for it. -/
def Storable (t : DataType) : Prop :=
  t.machineTypes = [Lowering.cellType t]

/-- Where no tuple is one float alone, a type that fits a cell has the machine type of its cell. -/
theorem storable_of_fitsCell {t : DataType} (hfits : t.fitsCell) (hfloat : t.isFloatTuple = false) :
    t.Storable := by
  have hwidth : t.machineTypes.length = 1 := fitsCell_iff.mp hfits
  unfold Storable
  match t with
  | .i32 | .f64 | .string | .struct .. | .array _ => rfl
  | .none => simp [machineTypes] at hwidth
  | .tuple elements =>
    obtain ⟨type, htype⟩ := List.length_eq_one_iff.mp hwidth
    rw [htype]
    -- the one machine value is not a float
    cases type with
    | i32 => rfl
    | f32 =>
      rw [machineTypes] at htype
      simp [isFloatTuple, htype] at hfloat

theorem storable_i32 : i32.Storable := rfl

theorem storable_array (element : DataType) : (DataType.array element).Storable := rfl

/-- Numbers are stored as what they are. -/
theorem storable_of_isNumeric {t : DataType} (h : t.isNumeric) : t.Storable := by
  unfold isNumeric at h
  split at h
  · rfl
  · rfl
  · cases h

theorem AvoidsFloatTuples.self {t : DataType} (h : t.AvoidsFloatTuples) :
    t.isFloatTuple = false :=
  h t t.self_mem_parts

theorem AvoidsFloatTuples.element {element : DataType}
    (h : (DataType.array element).AvoidsFloatTuples) : element.AvoidsFloatTuples :=
  (throughout_array_iff.mp h).2

theorem AvoidsFloatTuples.field {struct name : String} {fields : List (String × DataType)}
    {i : Nat} {type : DataType} (h : (DataType.struct struct fields).AvoidsFloatTuples)
    (hfield : lookupField name fields = some (i, type)) : type.AvoidsFloatTuples :=
  Throughout.field h hfield

/-- The elements of an array can be stored. -/
theorem storable_element {element : DataType} (hwf : (DataType.array element).WellFormed)
    (havoids : (DataType.array element).AvoidsFloatTuples) : element.Storable :=
  storable_of_fitsCell (wellFormed_array_iff.mp hwf).1 havoids.element.self

/-- The fields of a struct can be stored. -/
theorem storable_field {struct name : String} {fields : List (String × DataType)} {i : Nat}
    {type : DataType} (hwf : (DataType.struct struct fields).WellFormed)
    (havoids : (DataType.struct struct fields).AvoidsFloatTuples)
    (hfield : lookupField name fields = some (i, type)) : type.Storable :=
  storable_of_fitsCell (hwf.field hfield).1 (havoids.field hfield).self

/-- A value of no type takes no place. -/
theorem machineTypes_of_isNone {t : DataType} (h : t.isNone) : t.machineTypes = [] := by
  match t, h with
  | .none, _ => rfl

/-! ### Elements of tuples

A tuple lies flat in its slots, so an element is a piece of it. -/

/-- The machine values of an element stand after those of the elements before it. -/
theorem machineTypesAll_split {elements : List DataType} {i : Nat} {type : DataType}
    (h : elements[i]? = some type) :
    machineTypesAll elements = machineTypesAll (elements.take i) ++
      (type.machineTypes ++ machineTypesAll (elements.drop (i + 1))) := by
  obtain ⟨hlt, hget⟩ := List.getElem?_eq_some_iff.mp h
  have hsplit : elements.take i ++ type :: elements.drop (i + 1) = elements := by
    rw [← hget, ← List.drop_eq_getElem_cons hlt, List.take_append_drop]
  simp only [machineTypesAll_eq_flatMap, ← List.flatMap_cons, ← List.flatMap_append, hsplit]

end DataType

end WasmCompiler
