import WasmCompiler.Lowering.Program
import WasmCompiler.Proofs.Typing.Statements

/-!
# Declared names

What is in a symbol table after the declarations of a program: every struct and every function
under its own name, which nothing else has and which is not reserved, with well-formed types.
A name that is registered keeps its meaning, because a second one of the same name is refused.

* `Registry` is what holds of every table on the way, and `Extends` relates two of them.
* `defineStruct_eq_ok` and `defineFunction_eq_ok` are the steps, for one entry each.
* `declareStructs_eq_ok` and `declareFunctions_eq_ok` are the two passes over the statements.
* `declared_of_declare` puts them together, for a table without functions and structs.
-/

namespace WasmCompiler

namespace SymbolTable

variable {t t' : SymbolTable}

/-- The names of functions and structs. -/
def names (t : SymbolTable) : List String :=
  t.functions.map (·.1) ++ t.structs.map (·.1)

/-- Names stand for one thing each, none of them reserved, and types are well-formed. -/
structure Registry (t : SymbolTable) : Prop where
  nodup : t.names.Nodup
  free : ∀ name ∈ t.names, name ∉ reservedNames
  wellFormed : t.WellFormed

/-- A table with more entries than another; the rest is the same. -/
structure Extends (t t' : SymbolTable) : Prop where
  functions : ∀ name signature, t.function? name = some signature →
    t'.function? name = some signature
  structs : ∀ name fields, t.struct? name = some fields → t'.struct? name = some fields
  rest : t' = { t with functions := t'.functions, structs := t'.structs }

theorem Extends.refl (t : SymbolTable) : t.Extends t :=
  ⟨fun _ _ h => h, fun _ _ h => h, rfl⟩

theorem Extends.trans {t₁ t₂ t₃ : SymbolTable} (h : t₁.Extends t₂) (h' : t₂.Extends t₃) :
    t₁.Extends t₃ := by
  refine ⟨fun name signature hf => h'.functions name signature (h.functions name signature hf),
    fun name fields hs => h'.structs name fields (h.structs name fields hs), ?_⟩
  rw [h'.rest, h.rest]

/-- A name is found if it is one of the names of the list. -/
theorem lookup_isSome_iff {β : Type} {l : List (String × β)} {name : String} :
    (l.lookup name).isSome ↔ name ∈ l.map (·.1) := by
  induction l with
  | nil => simp
  | cons entry l ih =>
    obtain ⟨k, v⟩ := entry
    rw [List.lookup_cons]
    by_cases h : name = k
    · simp [h]
    · have hk : (name == k) = false := by simpa using h
      rw [hk]
      simp [ih, h]

/-- A name is taken if it is registered or reserved. -/
theorem isTaken_eq_false_iff {name : String} :
    t.isTaken name = false ↔ name ∉ t.names ∧ name ∉ reservedNames := by
  simp only [isTaken, function?, struct?, names, List.mem_append, ← lookup_isSome_iff,
    Bool.or_eq_false_iff, Bool.not_eq_true, not_or, Option.isSome_eq_false_iff,
    List.contains_eq_mem, decide_eq_false_iff_not, Option.isNone_iff_eq_none]

/-- A new name in front hides no other. -/
theorem lookup_cons_of_mem {β : Type} {l : List (String × β)} {name other : String} {v b : β}
    (h : l.lookup other = some b) (hname : name ∉ l.map (·.1)) :
    ((name, v) :: l).lookup other = some b := by
  have hne : other ≠ name := by
    rintro rfl
    exact hname (lookup_isSome_iff.mp (by rw [h]; rfl))
  rw [List.lookup_cons, show (other == name) = false by simpa using hne]
  exact h

/-! ### One declaration

An entry is made once its types are known and its name is free. -/

/-- A struct gets its entry if the name is free. -/
theorem defineStruct_eq_ok_iff {name : String} {fields : List (String × DataType)}
    {location : Location} :
    t.defineStruct name fields location = .ok t' ↔
      t.isTaken name = false ∧ t' = { t with structs := (name, fields) :: t.structs } := by
  unfold defineStruct
  cases t.isTaken name with
  | true => simp
  | false =>
    simp only [Bool.false_eq_true, if_false, Except.ok.injEq, true_and]
    exact eq_comm

/-- A struct can be registered if its fields have types and its name is free. -/
theorem declareStruct_eq_ok_iff {decl : StructDecl} {location : Location} :
    t.declareStruct decl location = .ok t' ↔
      ∃ fields, t.resolveFields decl.name [] decl.fields = .ok fields ∧
        t.isTaken decl.name = false ∧
        t' = { t with structs := (decl.name, fields) :: t.structs } := by
  rw [declareStruct, Except.bind_eq_ok_iff]
  simp only [defineStruct_eq_ok_iff]

/-- The new entry has a name of its own, so everything that was known is known as before. -/
theorem defineStruct_eq_ok {name : String} {fields : List (String × DataType)}
    {location : Location} (h : t.defineStruct name fields location = .ok t') (ht : t.Registry)
    (hfields : ∀ f ∈ fields, f.2.fitsCell ∧ f.2.WellFormed) :
    t'.Registry ∧ t.Extends t' ∧ t'.struct? name = some fields ∧
      t'.functions = t.functions ∧ t'.structs.map (·.1) = name :: t.structs.map (·.1) := by
  obtain ⟨htaken, rfl⟩ := defineStruct_eq_ok_iff.mp h
  obtain ⟨hnew, hfree⟩ := isTaken_eq_false_iff.mp htaken
  have hnames : (names { t with structs := (name, fields) :: t.structs }).Perm
      (name :: t.names) := List.perm_middle
  refine ⟨⟨?_, ?_, ?_⟩, ⟨fun _ _ h => h, fun other fs hother => ?_, rfl⟩, ?_, rfl, rfl⟩
  · exact hnames.nodup_iff.mpr (List.nodup_cons.mpr ⟨hnew, ht.nodup⟩)
  · intro other hother
    rcases List.mem_cons.mp (hnames.mem_iff.mp hother) with rfl | hother
    · exact hfree
    · exact ht.free other hother
  · exact ⟨ht.wellFormed.visible, ht.wellFormed.functions,
      List.forall_mem_cons.mpr ⟨hfields, ht.wellFormed.structs⟩⟩
  · exact lookup_cons_of_mem hother fun h => hnew (List.mem_append_right _ h)
  · simp [struct?]

/-- What registering a function leaves. The types of the signature are well-formed if its
annotations are. -/
theorem defineFunction_eq_ok {name : String} {signature : Signature} {location : Location}
    (h : t.defineFunction name signature location = .ok t') (ht : t.Registry)
    (hsignature : (∀ p ∈ signature.params, p.WellFormed) ∧ signature.result.WellFormed) :
    t'.Registry ∧ t.Extends t' ∧ t'.function? name = some signature ∧
      t'.structs = t.structs ∧ t'.functions.map (·.1) = name :: t.functions.map (·.1) := by
  unfold defineFunction at h
  split at h
  · cases h
  rename_i htaken
  obtain rfl := Except.ok.inj h
  -- a name that is not taken names no declaration yet, and is not reserved
  obtain ⟨hnew, hfree⟩ := isTaken_eq_false_iff.mp (by simpa using htaken)
  have hnames : names { t with functions := (name, signature) :: t.functions } = name :: t.names :=
    rfl
  refine ⟨⟨?_, ?_, ?_⟩, ⟨fun other s hother => ?_, fun _ _ h => h, rfl⟩, ?_, rfl, rfl⟩
  · rw [hnames]
    exact List.nodup_cons.mpr ⟨hnew, ht.nodup⟩
  · rw [hnames, List.forall_mem_cons]
    exact ⟨hfree, ht.free⟩
  · exact ⟨ht.wellFormed.visible, List.forall_mem_cons.mpr ⟨hsignature, ht.wellFormed.functions⟩,
      ht.wellFormed.structs⟩
  · exact lookup_cons_of_mem hother fun h => hnew (List.mem_append_left _ h)
  · simp [function?]

/-- Fields that are accepted fit a cell and are well-formed. -/
theorem resolveFields_eq_ok {struct : String} (ht : t.WellFormed) {fs : List Field}
    {done fields : List (String × DataType)} (h : t.resolveFields struct done fs = .ok fields)
    (hdone : ∀ f ∈ done, f.2.fitsCell ∧ f.2.WellFormed) :
    ∀ f ∈ fields, f.2.fitsCell ∧ f.2.WellFormed := by
  induction fs generalizing done with
  | nil =>
    obtain rfl := Except.ok.inj h
    exact hdone
  | cons f fs ih =>
    rw [resolveFields] at h
    split at h
    · cases h
    obtain ⟨type, htype, h⟩ := Except.bind_eq_ok_iff.mp h
    dsimp only at h
    split at h
    · rename_i hfits
      refine ih h fun field hfield => ?_
      rcases List.mem_append.mp hfield with hfield | hfield
      · exact hdone field hfield
      · obtain rfl := List.mem_singleton.mp hfield
        exact ⟨hfits, ht.resolve _ htype⟩
    · cases h

theorem length_resolveParams {fields : List Field} {types : List DataType}
    (h : t.resolveParams fields = .ok types) : types.length = fields.length := by
  induction fields generalizing types with
  | nil =>
    obtain rfl := Except.ok.inj h
    rfl
  | cons f fs ih =>
    rw [resolveParams] at h
    obtain ⟨type, -, h⟩ := Except.bind_eq_ok_iff.mp h
    obtain ⟨types', htypes, h⟩ := Except.bind_eq_ok_iff.mp h
    obtain rfl := Except.ok.inj h
    exact congrArg Nat.succ (ih htypes)

/-- A signature has one type for each parameter. -/
theorem length_resolveSignature {header : FunctionHeader} {location : Location}
    {signature : Signature} (h : t.resolveSignature header location = .ok signature) :
    signature.params.length = header.params.length := by
  unfold resolveSignature at h
  obtain ⟨params, hparams, h⟩ := Except.bind_eq_ok_iff.mp h
  cases hreturn : header.returnType with
  | none =>
    rw [hreturn] at h
    obtain rfl := Except.ok.inj h
    exact length_resolveParams hparams
  | some written =>
    rw [hreturn] at h
    obtain ⟨result, -, h⟩ := Except.bind_eq_ok_iff.mp h
    obtain rfl := Except.ok.inj h
    exact length_resolveParams hparams

section Throughout

variable {P : DataType → Prop}

/-- The types of parameters are those of annotations. -/
theorem Throughout.resolveParams (ht : t.Throughout P) (hP : DataType.Builtin P)
    {fs : List Field} {types : List DataType} (h : t.resolveParams fs = .ok types) :
    ∀ type ∈ types, type.Throughout P := by
  induction fs generalizing types with
  | nil =>
    obtain rfl := Except.ok.inj h
    simp
  | cons f fs ih =>
    rw [SymbolTable.resolveParams] at h
    obtain ⟨type, htype, h⟩ := Except.bind_eq_ok_iff.mp h
    obtain ⟨others, hothers, h⟩ := Except.bind_eq_ok_iff.mp h
    obtain rfl := Except.ok.inj h
    exact List.forall_mem_cons.mpr ⟨ht.resolve hP _ htype, ih hothers⟩

/-- A function without a result type gives none, which is built in. -/
theorem Throughout.resolveSignature (ht : t.Throughout P) (hP : DataType.Builtin P)
    {header : FunctionHeader} {location : Location} {signature : Signature}
    (h : t.resolveSignature header location = .ok signature) :
    (∀ param ∈ signature.params, param.Throughout P) ∧ signature.result.Throughout P := by
  unfold SymbolTable.resolveSignature at h
  obtain ⟨params, hparams, h⟩ := Except.bind_eq_ok_iff.mp h
  have hall := ht.resolveParams hP hparams
  cases hreturn : header.returnType with
  | some written =>
    rw [hreturn] at h
    obtain ⟨result, hresult, h⟩ := Except.bind_eq_ok_iff.mp h
    obtain rfl := Except.ok.inj h
    exact ⟨hall, ht.resolve hP _ hresult⟩
  | none =>
    rw [hreturn] at h
    obtain rfl := Except.ok.inj h
    exact ⟨hall, hP.throughout _⟩

end Throughout

/-! ### All declarations

Structs first, in the order of the text, so that a field has the type of an earlier struct; then the
functions. -/

/-- The names of the structs among some statements. -/
def structNames (stmts : List Stmt) : List String :=
  stmts.filterMap fun
    | .struct _ decl => some decl.name
    | _ => none

/-- The names of the functions among some statements. -/
def functionNames (stmts : List Stmt) : List String :=
  stmts.filterMap fun
    | .function _ header _ => some header.name
    | _ => none

/-- A change of the table that may fail, as a step. -/
theorem update_eq_ok_iff {f : SymbolTable → Except SemanticError SymbolTable} {u : Unit} :
    update f t = .ok u t' ↔ f t = .ok t' := by
  unfold update
  cases f t <;> simp

theorem declareIfStruct_struct_iff {decl : StructDecl} {location : Location} {u : Unit} :
    declareIfStruct (.struct location decl) t = .ok u t' ↔
      t.declareStruct decl location = .ok t' := by
  rw [declareIfStruct, update_eq_ok_iff]

/-- What registering a struct keeps, the first pass keeps. -/
theorem keeps_declareStructs {P : SymbolTable → Prop}
    (hstep : ∀ {t t' : SymbolTable} {decl : StructDecl} {location : Location},
      t.declareStruct decl location = .ok t' → P t → P t')
    {stmts : List Stmt} {u : Unit} (h : stmts.forM declareIfStruct t = .ok u t') (ht : P t) :
    P t' := by
  induction stmts generalizing t with
  | nil =>
    obtain ⟨-, rfl⟩ := EStateM.pure_eq_ok_iff.mp h
    exact ht
  | cons stmt stmts ih =>
    obtain ⟨_, t₁, hstmt, hstmts⟩ := EStateM.bind_eq_ok_iff.mp h
    refine ih hstmts ?_
    cases stmt with
    | struct location decl => exact hstep (declareIfStruct_struct_iff.mp hstmt) ht
    | _ =>
      obtain ⟨-, rfl⟩ := EStateM.pure_eq_ok_iff.mp hstmt
      exact ht

/-- Declaring a struct is resolving its fields and making the entry. -/
theorem declareStruct_eq_ok {decl : StructDecl} {location : Location}
    (h : t.declareStruct decl location = .ok t') (ht : t.Registry) :
    t'.Registry ∧ t.Extends t' ∧ (∃ fields, t'.struct? decl.name = some fields) ∧
      t'.functions = t.functions ∧ t'.structs.map (·.1) = decl.name :: t.structs.map (·.1) := by
  obtain ⟨fields, hfields, h⟩ := Except.bind_eq_ok_iff.mp h
  obtain ⟨hregistry, hextends, hfound, hsame⟩ := defineStruct_eq_ok h ht
    (resolveFields_eq_ok ht.wellFormed hfields (by simp))
  exact ⟨hregistry, hextends, ⟨fields, hfound⟩, hsame⟩

/-- Declaring a function is resolving its signature and making the entry. An exported one may not
have the name of the memory. -/
theorem declareFunction_eq_ok {header : FunctionHeader} {location : Location}
    (h : t.declareFunction header location = .ok t') (ht : t.Registry) :
    t'.Registry ∧ t.Extends t' ∧
      (∃ signature, t'.function? header.name = some signature ∧
        signature.params.length = header.params.length) ∧
      t'.structs = t.structs ∧ t'.functions.map (·.1) = header.name :: t.functions.map (·.1) ∧
      (header.exported → t.exportsMemory → header.name ≠ memoryName) := by
  unfold declareFunction at h
  obtain ⟨signature, hsignature, h⟩ := Except.bind_eq_ok_iff.mp h
  have hlength := length_resolveSignature hsignature
  have hwf := (wellFormed_iff_throughout.mp ht.wellFormed).resolveSignature
    DataType.builtin_cellsFit hsignature
  split at h
  · cases h
  rename_i hmemory
  obtain ⟨hregistry, hextends, hfound, hstructs, hnames⟩ := defineFunction_eq_ok h ht hwf
  refine ⟨hregistry, hextends, ⟨signature, hfound, hlength⟩, hstructs, hnames, ?_⟩
  intro hexported hexports heq
  exact hmemory (by simp [hexported, hexports, heq])

/-- After the first pass every struct is registered. -/
theorem declareStructs_eq_ok {stmts : List Stmt} {u : Unit}
    (h : stmts.forM declareIfStruct t = .ok u t') (ht : t.Registry) :
    t'.Registry ∧ t.Extends t' ∧ t'.functions = t.functions ∧
      t'.structs.map (·.1) = (structNames stmts).reverse ++ t.structs.map (·.1) ∧
      ∀ location decl, Stmt.struct location decl ∈ stmts →
        ∃ fields, t'.struct? decl.name = some fields := by
  induction stmts generalizing t with
  | nil =>
    obtain ⟨-, rfl⟩ := EStateM.pure_eq_ok_iff.mp h
    exact ⟨ht, .refl t, rfl, rfl, by simp⟩
  | cons stmt stmts ih =>
    obtain ⟨_, t₁, hstmt, hstmts⟩ := EStateM.bind_eq_ok_iff.mp h
    cases stmt with
    | struct location decl =>
      obtain ⟨hregistry, hextends, ⟨fields, hfields⟩, hfunctions, hnames⟩ :=
        declareStruct_eq_ok (declareIfStruct_struct_iff.mp hstmt) ht
      -- the later declarations keep the struct and add theirs in front
      obtain ⟨hregistry', hextends', hfunctions', hnames', hfound⟩ := ih hstmts hregistry
      refine ⟨hregistry', hextends.trans hextends', hfunctions'.trans hfunctions, ?_, ?_⟩
      · rw [hnames', hnames]
        simp [structNames]
      · intro location' decl' hmem
        rcases List.mem_cons.mp hmem with heq | hmem
        · obtain ⟨rfl, rfl⟩ := Stmt.struct.inj heq
          exact ⟨fields, hextends'.structs _ _ hfields⟩
        · exact hfound location' decl' hmem
    | _ =>
      obtain ⟨-, rfl⟩ := EStateM.pure_eq_ok_iff.mp hstmt
      obtain ⟨hregistry, hextends, hfunctions, hnames, hfound⟩ := ih hstmts ht
      refine ⟨hregistry, hextends, hfunctions, hnames, fun location decl hmem => ?_⟩
      exact hfound location decl (by simpa using hmem)

/-- After the second pass every function is registered. -/
theorem declareFunctions_eq_ok {stmts : List Stmt} {u : Unit}
    (h : stmts.forM declareIfFunction t = .ok u t') (ht : t.Registry) :
    t'.Registry ∧ t.Extends t' ∧ t'.structs = t.structs ∧
      t'.functions.map (·.1) = (functionNames stmts).reverse ++ t.functions.map (·.1) ∧
      ∀ location header body, Stmt.function location header body ∈ stmts →
        (∃ signature, t'.function? header.name = some signature ∧
          signature.params.length = header.params.length) ∧
        (header.exported → t.exportsMemory → header.name ≠ memoryName) := by
  induction stmts generalizing t with
  | nil =>
    obtain ⟨-, rfl⟩ := EStateM.pure_eq_ok_iff.mp h
    exact ⟨ht, .refl t, rfl, rfl, by simp⟩
  | cons stmt stmts ih =>
    obtain ⟨_, t₁, hstmt, hstmts⟩ := EStateM.bind_eq_ok_iff.mp h
    cases stmt with
    | function location header body =>
      rw [declareIfFunction] at hstmt
      obtain ⟨hregistry, hextends, ⟨signature, hsignature, hlength⟩, hstructs, hnames, hmemory⟩ :=
        declareFunction_eq_ok (update_eq_ok_iff.mp hstmt) ht
      obtain ⟨hregistry', hextends', hstructs', hnames', hfound⟩ := ih hstmts hregistry
      refine ⟨hregistry', hextends.trans hextends', hstructs'.trans hstructs, ?_, ?_⟩
      · rw [hnames', hnames]
        simp [functionNames]
      · intro location' header' body' hmem
        -- whether memory is exported does not change while functions are declared
        have hexports : t₁.exportsMemory = t.exportsMemory := by rw [hextends.rest]
        rcases List.mem_cons.mp hmem with heq | hmem
        · obtain ⟨rfl, rfl, rfl⟩ := Stmt.function.inj heq
          exact ⟨⟨signature, hextends'.functions _ _ hsignature, hlength⟩, hmemory⟩
        · rw [← hexports]
          exact hfound location' header' body' hmem
    | _ =>
      obtain ⟨-, rfl⟩ := EStateM.pure_eq_ok_iff.mp hstmt
      obtain ⟨hregistry, hextends, hstructs, hnames, hfound⟩ := ih hstmts ht
      refine ⟨hregistry, hextends, hstructs, hnames, fun location header body hmem => ?_⟩
      exact hfound location header body (by simpa using hmem)

end SymbolTable

/-- What a table knows of a program after its declarations. -/
structure Declared (program : Program) (t g : SymbolTable) : Prop where
  registry : g.Registry
  /-- The names of the table are those of the program. -/
  names : g.names.Perm (Lowering.declaredNames program)
  structs : ∀ location decl, Stmt.struct location decl ∈ program.statements →
    ∃ fields, g.struct? decl.name = some fields
  functions : ∀ location header body, Stmt.function location header body ∈ program.statements →
    (∃ signature, g.function? header.name = some signature ∧
      signature.params.length = header.params.length) ∧
    (header.exported → g.exportsMemory → header.name ≠ memoryName)
  rest : g = { t with functions := g.functions, structs := g.structs }

/-- Lowering lists the names in the order of the text, the passes by their kind. -/
theorem declaredNames_perm (stmts : List Stmt) :
    (stmts.filterMap Lowering.declaredName?).Perm
      (SymbolTable.functionNames stmts ++ SymbolTable.structNames stmts) := by
  induction stmts with
  | nil => exact .refl _
  | cons stmt stmts ih =>
    cases stmt with
    | struct location decl => exact (ih.cons decl.name).trans List.perm_middle.symm
    | function location header body => exact ih.cons header.name
    | _ => exact ih

/-- Declaring a program in a table without functions and structs registers all of it. -/
theorem declared_of_declare {program : Program} {t g : SymbolTable} {u : Unit}
    (h : SymbolTable.declare program t = .ok u g) (hfunctions : t.functions = [])
    (hstructs : t.structs = []) (hscopes : t.scopes = []) : Declared program t g := by
  have ht : t.Registry := by
    refine ⟨?_, ?_, ?_, ?_, ?_⟩ <;> simp [SymbolTable.names, hfunctions, hstructs, hscopes]
  unfold SymbolTable.declare at h
  obtain ⟨_, t₁, hpass, h⟩ := EStateM.bind_eq_ok_iff.mp h
  obtain ⟨hregistry, hextends, hsame, hnames, hfound⟩ := SymbolTable.declareStructs_eq_ok hpass ht
  obtain ⟨hregistry', hextends', hsame', hnames', hfound'⟩ :=
    SymbolTable.declareFunctions_eq_ok h hregistry
  have hexports : g.exportsMemory = t₁.exportsMemory := by rw [hextends'.rest]
  refine ⟨hregistry', ?_, fun location decl hmem => ?_, ?_, (hextends.trans hextends').rest⟩
  · rw [SymbolTable.names, hnames', hsame', hnames, hsame, hfunctions, hstructs]
    simp only [List.map_nil, List.append_nil]
    -- both passes register in reverse, the structs before the functions
    exact ((List.reverse_perm _).append (List.reverse_perm _)).trans
      (declaredNames_perm program.statements).symm
  · obtain ⟨fields, hfields⟩ := hfound location decl hmem
    exact ⟨fields, hextends'.structs _ _ hfields⟩
  · rw [hexports]
    exact hfound'

end WasmCompiler
