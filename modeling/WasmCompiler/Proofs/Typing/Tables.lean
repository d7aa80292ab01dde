import WasmCompiler.Proofs.Typing.Storage

/-!
# What holds of all types in a symbol table

Types come from a table: annotations are resolved in it, and `typeOf` asks it for variables,
functions and structs. What else they consist of are primitive types, tuples, and arrays whose
elements fit a cell. So a property of all these (`DataType.Builtin`) that holds throughout the types
in a table holds throughout every type that is found with it (`SymbolTable.Throughout`).

A table is well-formed if all types in it are. Declarations build such tables, and checking a
statement keeps them so; functions, structs and strings do not change while a program is checked
(`SymbolTable.SameGlobals`).

* `SymbolTable.defineVariable_eq_ok_iff` and `SymbolTable.defineVariable_eq_error_iff` say when a
  name can be defined and what the table is afterwards.
* `SymbolTable.Throughout.resolve` and `SymbolTable.Throughout.typeOf` carry a property of the types
  in a table to the types of annotations and of expressions.
* `SymbolTable.WellFormed.typeOf` is the case that lowering needs.
-/

namespace WasmCompiler

/-- What is found under a key stands in the list with it. -/
theorem mem_of_lookup {α β : Type} [BEq α] [LawfulBEq α] {l : List (α × β)} {k : α} {b : β}
    (h : l.lookup k = some b) : (k, b) ∈ l := by
  obtain ⟨l₁, l₂, rfl, -⟩ := List.lookup_eq_some_iff.mp h
  exact List.mem_append_right _ List.mem_cons_self

namespace SymbolTable

variable {t t' : SymbolTable}

/-! ### Operations on tables

What looking a name up and defining one amount to, without the lists that they go through. -/

/-- The variable that a name stands for is one of an open scope. -/
theorem lookupVariable?_mem {name : String} {var : Variable}
    (h : t.lookupVariable? name = some var) : ∃ scope ∈ t.scopes, var ∈ scope := by
  obtain ⟨scope, hscope, hfind⟩ := List.exists_of_findSome?_eq_some h
  exact ⟨scope, hscope, List.mem_of_find?_eq_some hfind⟩

/-- The table with one more variable in its innermost scope. -/
def withVariable (t : SymbolTable) (var : Variable) : SymbolTable :=
  { t with
    scopes := (var :: t.scopes.headD []) :: t.scopes.tail
    nextSlot := t.nextSlot + var.type.width
    declared := if var.role = .declaration then t.declared ++ [var] else t.declared }

/-- A variable can be defined in an open scope that has no variable of the name. -/
theorem defineVariable_eq_ok_iff {name : String} {type : DataType} {role : Role}
    {location : Location} {var : Variable} :
    t.defineVariable name type role location = .ok (var, t') ↔
      t.scopes ≠ [] ∧ findIn name (t.scopes.headD []) = none ∧
        var = ⟨name, type, t.nextSlot, role⟩ ∧ t' = t.withVariable var := by
  obtain ⟨scopes, functions, structs, strings, nextSlot, declared, exportsMemory⟩ := t
  unfold defineVariable
  cases scopes with
  | nil => simp
  | cons scope outer =>
    simp only [List.headD_cons, ne_eq, reduceCtorEq, not_false_eq_true, true_and]
    cases hfind : findIn name scope with
    | some other => simp
    | none =>
      simp only [Except.ok.injEq, Prod.mk.injEq, withVariable, true_and]
      constructor
      · rintro ⟨rfl, rfl⟩
        exact ⟨rfl, rfl⟩
      · rintro ⟨rfl, rfl⟩
        exact ⟨rfl, rfl⟩

/-- It cannot be defined outside of scopes, nor where the innermost one has the name already. -/
theorem defineVariable_eq_error_iff {name : String} {type : DataType} {role : Role}
    {location : Location} {e : SemanticError} :
    t.defineVariable name type role location = .error e ↔
      t.scopes = [] ∧ e = .misplaced (.variableOutsideScope name) location ∨
        findIn name (t.scopes.headD []) ≠ none ∧ e = .duplicate name location := by
  unfold defineVariable
  cases t.scopes with
  | nil => simp [findIn, eq_comm]
  | cons scope outer =>
    cases hfind : findIn name scope with
    | some other => simp [hfind, eq_comm]
    | none => simp [hfind]

/-! ### What does not change

Between declaring a program and the end of its compilation only variables come and go. -/

/-- Tables that differ in their variables at most. -/
structure SameGlobals (t t' : SymbolTable) : Prop where
  functions : t'.functions = t.functions
  structs : t'.structs = t.structs
  strings : t'.strings = t.strings
  exportsMemory : t'.exportsMemory = t.exportsMemory

theorem SameGlobals.refl (t : SymbolTable) : t.SameGlobals t :=
  ⟨rfl, rfl, rfl, rfl⟩

theorem SameGlobals.trans {t₁ t₂ t₃ : SymbolTable} (h : t₁.SameGlobals t₂)
    (h' : t₂.SameGlobals t₃) : t₁.SameGlobals t₃ :=
  ⟨h'.functions.trans h.functions, h'.structs.trans h.structs, h'.strings.trans h.strings,
    h'.exportsMemory.trans h.exportsMemory⟩

/-- Opening a scope touches no function, struct or string. -/
theorem SameGlobals.enterScope (h : t.SameGlobals t') : t.SameGlobals t'.enterScope :=
  ⟨h.functions, h.structs, h.strings, h.exportsMemory⟩

/-- What a scope is entered with is what leaving it keeps. -/
theorem SameGlobals.exitScope (h : t.enterScope.SameGlobals t') : t.SameGlobals t'.exitScope :=
  ⟨h.functions, h.structs, h.strings, h.exportsMemory⟩

/-- Entering a function resets what is known of variables and nothing else. -/
theorem sameGlobals_enterFunction (t : SymbolTable) : t.SameGlobals t.enterFunction :=
  ⟨rfl, rfl, rfl, rfl⟩

/-- What a name can be called with is the same in both tables. -/
theorem SameGlobals.callable? (h : t.SameGlobals t') (name : String) :
    t'.callable? name = t.callable? name := by
  simp only [SymbolTable.callable?, function?, struct?, h.functions, h.structs]

/-! ### Properties of all types

The operations on scopes keep such a property, and what is looked up has it. -/

/-- All types in the table have a property throughout. -/
structure Throughout (P : DataType → Prop) (t : SymbolTable) : Prop where
  visible : ∀ scope ∈ t.scopes, ∀ var ∈ scope, var.type.Throughout P
  functions : ∀ f ∈ t.functions,
    (∀ param ∈ f.2.params, param.Throughout P) ∧ f.2.result.Throughout P
  structs : ∀ s ∈ t.structs, (DataType.struct s.1 s.2).Throughout P

section Throughout

variable {P : DataType → Prop}

theorem Throughout.mono {Q : DataType → Prop} (h : t.Throughout P) (hPQ : ∀ s, P s → Q s) :
    t.Throughout Q :=
  ⟨fun scope hscope var hvar => (h.visible scope hscope var hvar).mono hPQ,
    fun f hf => ⟨fun param hparam => ((h.functions f hf).1 param hparam).mono hPQ,
      (h.functions f hf).2.mono hPQ⟩,
    fun s hs => (h.structs s hs).mono hPQ⟩

/-- Defining a variable keeps the property if its type has it. -/
theorem Throughout.withVariable (h : t.Throughout P) {var : Variable}
    (hvar : var.type.Throughout P) : (t.withVariable var).Throughout P := by
  refine ⟨?_, h.functions, h.structs⟩
  intro scope hscope
  rcases List.mem_cons.mp hscope with rfl | hscope
  · intro other hother
    rcases List.mem_cons.mp hother with rfl | hother
    · exact hvar
    · cases hscopes : t.scopes with
      | nil =>
        rw [hscopes] at hother
        cases hother
      | cons first outer =>
        rw [hscopes] at hother
        exact h.visible first (by rw [hscopes]; exact List.mem_cons_self) other hother
  · exact h.visible scope (List.mem_of_mem_tail hscope)

theorem Throughout.enterScope (h : t.Throughout P) : t.enterScope.Throughout P :=
  ⟨List.forall_mem_cons.mpr ⟨by simp, h.visible⟩, h.functions, h.structs⟩

/-- Closing a scope only takes variables away. -/
theorem Throughout.exitScope (h : t.Throughout P) : t.exitScope.Throughout P :=
  ⟨fun scope hscope => h.visible scope (List.mem_of_mem_tail hscope), h.functions, h.structs⟩

theorem Throughout.enterFunction (h : t.Throughout P) : t.enterFunction.Throughout P :=
  ⟨List.forall_mem_cons.mpr ⟨by simp, h.visible⟩, h.functions, h.structs⟩

theorem Throughout.exitFunction (h : t.Throughout P) : t.exitFunction.Throughout P :=
  ⟨h.exitScope.visible, h.functions, h.structs⟩

/-- The variable that a name stands for has a type with the property. -/
theorem Throughout.variable {name : String} {var : Variable} (h : t.Throughout P)
    (hvar : t.lookupVariable? name = some var) : var.type.Throughout P := by
  obtain ⟨scope, hscope, hmem⟩ := lookupVariable?_mem hvar
  exact h.visible scope hscope var hmem

/-- A declared struct has the property, fields included. -/
theorem Throughout.struct {name : String} {fields : List (String × DataType)} (h : t.Throughout P)
    (hstruct : t.struct? name = some fields) : (DataType.struct name fields).Throughout P :=
  h.structs (name, fields) (mem_of_lookup hstruct)

/-- A call gives a type with the property: that of a declared function, the struct of a constructor,
or nothing for the functions of the host. -/
theorem Throughout.result (h : t.Throughout P) (hP : DataType.Builtin P) {name : String}
    {signature : Signature} (hcallee : t.callable? name = some signature) :
    signature.result.Throughout P := by
  unfold SymbolTable.callable? at hcallee
  split at hcallee
  · obtain rfl := Option.some.inj hcallee
    exact hP.throughout _
  · split at hcallee
    · obtain rfl := Option.some.inj hcallee
      exact hP.throughout _
    · split at hcallee
      · rename_i found hfound
        obtain rfl := Option.some.inj hcallee
        exact (h.functions (name, found) (mem_of_lookup hfound)).2
      · obtain ⟨fields, hfields, rfl⟩ := Option.map_eq_some_iff.mp hcallee
        exact h.struct hfields

/-! ### Annotations

An annotation puts the types of the table together with built-in ones. -/

mutual

/-- An annotation is resolved to a type with the property: a name to a primitive type or a struct of
the table, and arrays and tuples are built in. -/
theorem Throughout.resolve (h : t.Throughout P) (hP : DataType.Builtin P) {location : Location} :
    (written : TypeName) → {type : DataType} → t.resolve location written = .ok type →
      type.Throughout P
  | .named name, type, htype => by
    rw [SymbolTable.resolve] at htype
    split at htype
    · rename_i found hfound
      obtain rfl := Except.ok.inj htype
      -- the types that need no declaration
      have hprimitive : ∀ entry ∈ primitiveNames, entry.2.Throughout P := by
        simp only [primitiveNames, List.forall_mem_cons]
        exact ⟨hP.throughout _, hP.throughout _, hP.throughout _, hP.throughout _, by simp⟩
      exact hprimitive (name, found) (mem_of_lookup hfound)
    · split at htype
      · rename_i fields hfields
        obtain rfl := Except.ok.inj htype
        exact h.struct hfields
      · cases htype
  | .array element, type, htype => by
    rw [SymbolTable.resolve] at htype
    obtain ⟨found, hfound, htype⟩ := Except.bind_eq_ok_iff.mp htype
    split at htype
    · rename_i hfits
      obtain rfl := Except.ok.inj htype
      exact DataType.throughout_array_iff.mpr
        ⟨hP.array _ hfits, Throughout.resolve h hP element hfound⟩
    · cases htype
  | .tuple elements, type, htype => by
    rw [SymbolTable.resolve] at htype
    obtain ⟨types, htypes, htype⟩ := Except.bind_eq_ok_iff.mp htype
    obtain rfl := Except.ok.inj htype
    exact DataType.throughout_tuple_iff.mpr
      ⟨hP.tuple _, Throughout.resolveAll h hP elements htypes⟩

theorem Throughout.resolveAll (h : t.Throughout P) (hP : DataType.Builtin P)
    {location : Location} :
    (annotations : List TypeName) → {types : List DataType} →
      t.resolveAll location annotations = .ok types → ∀ type ∈ types, type.Throughout P
  | [], types, htypes => by
    obtain rfl := Except.ok.inj htypes
    simp
  | a :: as, types, htypes => by
    rw [SymbolTable.resolveAll] at htypes
    obtain ⟨type, htype, htypes⟩ := Except.bind_eq_ok_iff.mp htypes
    obtain ⟨others, hothers, htypes⟩ := Except.bind_eq_ok_iff.mp htypes
    obtain rfl := Except.ok.inj htypes
    rw [List.forall_mem_cons]
    exact ⟨Throughout.resolve h hP a htype, Throughout.resolveAll h hP as hothers⟩

end

/-! ### Expressions

So does every typing rule. -/

mutual

/-- Every typing rule takes types apart that have the property throughout, or puts such types
together. -/
theorem Throughout.typeOf (h : t.Throughout P) (hP : DataType.Builtin P) :
    (e : Expr) → {type : DataType} → typeOf t e = .ok type → type.Throughout P
  | .integer .., _, htype | .float .., _, htype | .string .., _, htype => by
    obtain rfl := Except.ok.inj htype
    exact hP.throughout _
  | .identifier .., _, htype => by
    obtain ⟨var, hvar, rfl⟩ := typeOf_identifier_iff.mp htype
    exact h.variable hvar
  | .unary _ _ operand, _, htype => by
    obtain ⟨-, htype, -⟩ := typeOf_unary_iff.mp htype
    exact Throughout.typeOf h hP operand htype
  | .binary _ op _ _, _, htype => by
    obtain ⟨l, r, -, -, hresult⟩ := typeOf_binary_iff.mp htype
    -- arithmetic gives a number, everything else a truth value
    rcases op.result?_cases hresult with ⟨-, -, rfl⟩ | ⟨-, -, rfl⟩ | ⟨-, -, -, rfl⟩
    · split <;> exact hP.throughout _
    · exact hP.throughout _
    · exact hP.throughout _
  | .call .., _, htype => by
    obtain ⟨signature, hcallee, -, -, rfl⟩ := typeOf_call_iff.mp htype
    exact h.result hP hcallee
  | .member _ base _, _, htype => by
    obtain ⟨struct, fields, i, hbase, hfield⟩ := typeOf_member_iff.mp htype
    exact (Throughout.typeOf h hP base hbase).field hfield
  | .index _ base _, _, htype => by
    rcases typeOf_index_iff.mp htype with ⟨hbase, -⟩ | ⟨elements, i, hbase, -, helement⟩
    · exact (DataType.throughout_array_iff.mp (Throughout.typeOf h hP base hbase)).2
    · exact (DataType.throughout_tuple_iff.mp (Throughout.typeOf h hP base hbase)).2 _
        (List.mem_of_getElem? helement)
  | .array _ [], _, htype => by cases htype
  | .array _ (first :: rest), _, htype => by
    obtain ⟨_, _, element, hcons, hfirst, hfits, -, rfl⟩ := typeOf_array_iff.mp htype
    obtain ⟨rfl, rfl⟩ := List.cons.inj hcons
    exact DataType.throughout_array_iff.mpr
      ⟨hP.array _ hfits, Throughout.typeOf h hP first hfirst⟩
  | .tuple _ items, _, htype => by
    obtain ⟨types, htypes, rfl⟩ := typeOf_tuple_iff.mp htype
    exact DataType.throughout_tuple_iff.mpr
      ⟨hP.tuple _, Throughout.elementTypes h hP items htypes⟩

/-- The element types of a tuple, for the rule of tuples. -/
theorem Throughout.elementTypes (h : t.Throughout P) (hP : DataType.Builtin P) :
    (items : List Expr) → {types : List DataType} → elementTypes t items = .ok types →
      ∀ type ∈ types, type.Throughout P
  | [], types, htypes => by
    obtain rfl := Except.ok.inj htypes
    simp
  | item :: items, types, htypes => by
    obtain ⟨type, others, htype, -, hothers, rfl⟩ := elementTypes_cons_iff.mp htypes
    rw [List.forall_mem_cons]
    exact ⟨Throughout.typeOf h hP item htype, Throughout.elementTypes h hP items hothers⟩

end

end Throughout

/-! ### Well-formed tables

That a field fits a cell is said of the struct that has it, so a well-formed table is a case of the
property above. -/

/-- All types in the table are well-formed. -/
structure WellFormed (t : SymbolTable) : Prop where
  visible : ∀ scope ∈ t.scopes, ∀ var ∈ scope, var.type.WellFormed
  functions : ∀ f ∈ t.functions, (∀ param ∈ f.2.params, param.WellFormed) ∧ f.2.result.WellFormed
  structs : ∀ s ∈ t.structs, ∀ field ∈ s.2, field.2.fitsCell ∧ field.2.WellFormed

/-- Well-formed tables are those in which the cells of every type fit. -/
theorem wellFormed_iff_throughout : t.WellFormed ↔ t.Throughout DataType.CellsFit :=
  ⟨fun h => ⟨h.visible, h.functions, fun s hs =>
      DataType.wellFormed_struct_iff.mpr (h.structs s hs)⟩,
    fun h => ⟨h.visible, h.functions, fun s hs =>
      DataType.wellFormed_struct_iff.mp (h.structs s hs)⟩⟩

/-- Defining a variable of a well-formed type keeps a table well-formed. -/
theorem WellFormed.withVariable (h : t.WellFormed) {var : Variable} (hvar : var.type.WellFormed) :
    (t.withVariable var).WellFormed :=
  wellFormed_iff_throughout.mpr ((wellFormed_iff_throughout.mp h).withVariable hvar)

theorem WellFormed.enterScope (h : t.WellFormed) : t.enterScope.WellFormed :=
  wellFormed_iff_throughout.mpr (wellFormed_iff_throughout.mp h).enterScope

theorem WellFormed.exitScope (h : t.WellFormed) : t.exitScope.WellFormed :=
  wellFormed_iff_throughout.mpr (wellFormed_iff_throughout.mp h).exitScope

theorem WellFormed.enterFunction (h : t.WellFormed) : t.enterFunction.WellFormed :=
  wellFormed_iff_throughout.mpr (wellFormed_iff_throughout.mp h).enterFunction

/-- Annotations stand for well-formed types. -/
theorem WellFormed.resolve (h : t.WellFormed) {location : Location} (written : TypeName)
    {type : DataType} (htype : t.resolve location written = .ok type) : type.WellFormed :=
  (wellFormed_iff_throughout.mp h).resolve DataType.builtin_cellsFit written htype

/-- Expressions have well-formed types. -/
theorem WellFormed.typeOf (h : t.WellFormed) (e : Expr) {type : DataType}
    (htype : typeOf t e = .ok type) : type.WellFormed :=
  (wellFormed_iff_throughout.mp h).typeOf DataType.builtin_cellsFit e htype

end SymbolTable

end WasmCompiler
