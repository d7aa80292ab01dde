import WasmCompiler.Compile
import WasmCompiler.Proofs.Lowering.Functions
import WasmCompiler.Proofs.Tree.Literals

/-!
# Accepted programs

A text is accepted if it parses and if what it says can be declared and checked. Two forms are
left out, on which lowering goes astray: array literals that end in `[]` and tuples that consist of
one float (`Accepted`). `generate_accepted` says that every accepted program is lowered, and
`Compiled` what is known of the result. `Compiled.resolves` says which function a call of a name
reaches.

`accepts` computes whether a text is accepted, so that a concrete text can be shown to be
(`accepts_iff`).
-/

namespace WasmCompiler

open Lowering
open Wasm (Function)

/-- No array literal of the program has `[]` as its last item. -/
def Program.AvoidsEmptyEnds (program : Program) : Prop :=
  ∀ e ∈ program.exprs, ∀ s ∈ e.parts, s.endsInEmptyArray = false

/-- No tuple of one float occurs in the type of a part of an expression or of a field. -/
structure Program.AvoidsFloatTuples (g : SymbolTable) (program : Program) : Prop where
  parts : ∀ p ∈ program.scopedExprs g, ∀ s ∈ p.2.parts, ∀ type,
    typeOf p.1 s = .ok type → type.AvoidsFloatTuples
  fields : ∀ entry ∈ g.structs, ∀ field ∈ entry.2, field.2.AvoidsFloatTuples

/-- A text that parses to `program`, with what it declares in `g`; `checked` is the program with the
types of its bindings. -/
structure Accepted (source : String) (options : CompileOptions) (program : Program)
    (t g : SymbolTable) (checked : Program) : Prop where
  start : options.memoryStart ≤ maxMemoryStart
  parsed : options.symbols.parse source = (.ok program, t)
  declared : SymbolTable.declare program t = .ok () g
  checked : ∃ g', checkProgram program g = .ok checked g'
  emptyEnds : program.AvoidsEmptyEnds
  floatTuples : program.AvoidsFloatTuples g

/-! ### Deciding acceptance

All conditions are computed from the tree and from the table. -/

instance (program : Program) : Decidable program.AvoidsEmptyEnds :=
  inferInstanceAs (Decidable (∀ e ∈ program.exprs, ∀ s ∈ e.parts, s.endsInEmptyArray = false))

/-- Whether no tuple of one float occurs in the type of an expression, if it has one. -/
def avoidsFloatTuples (t : SymbolTable) (e : Expr) : Bool :=
  match typeOf t e with
  | .ok type => type.parts.all (!·.isFloatTuple)
  | .error _ => true

instance (g : SymbolTable) (program : Program) : Decidable (program.AvoidsFloatTuples g) :=
  decidable_of_iff
    ((∀ p ∈ program.scopedExprs g, ∀ s ∈ p.2.parts, avoidsFloatTuples p.1 s) ∧
      ∀ entry ∈ g.structs, ∀ field ∈ entry.2, ∀ part ∈ field.2.parts, part.isFloatTuple = false) (by
    constructor
    · rintro ⟨hparts, hfields⟩
      refine ⟨fun p hp s hs type htype => ?_, hfields⟩
      have havoids := hparts p hp s hs
      simpa [avoidsFloatTuples, htype, DataType.AvoidsFloatTuples] using havoids
    · rintro ⟨hparts, hfields⟩
      refine ⟨fun p hp s hs => ?_, hfields⟩
      have havoids := hparts p hp s hs
      unfold avoidsFloatTuples
      split
      · rename_i type htype
        simpa [DataType.AvoidsFloatTuples] using havoids type htype
      · rfl)

/-- Whether a text is accepted, as a computation. -/
def accepts (source : String) (options : CompileOptions) : Bool :=
  options.memoryStart ≤ maxMemoryStart &&
    match options.symbols.parse source with
    | (.error _, _) => false
    | (.ok program, t) =>
      match SymbolTable.declare program t with
      | .error .. => false
      | .ok _ g =>
        match checkProgram program g with
        | .error .. => false
        | .ok .. => program.AvoidsEmptyEnds && program.AvoidsFloatTuples g

/-- The computation decides the definition. -/
theorem accepts_iff {source : String} {options : CompileOptions} :
    accepts source options ↔
      ∃ program t g checked, Accepted source options program t g checked := by
  constructor
  · intro h
    unfold accepts at h
    rw [Bool.and_eq_true, decide_eq_true_eq] at h
    obtain ⟨hstart, h⟩ := h
    split at h
    · cases h
    rename_i program t hparse
    split at h
    · cases h
    rename_i g hdeclare
    split at h
    · cases h
    rename_i checked g' hcheck
    rw [Bool.and_eq_true, decide_eq_true_eq, decide_eq_true_eq] at h
    exact ⟨program, t, g, checked, hstart, hparse, hdeclare, ⟨g', hcheck⟩, h.1, h.2⟩
  · rintro ⟨program, t, g, checked, h⟩
    obtain ⟨g', hcheck⟩ := h.checked
    simp [accepts, h.start, h.parsed, h.declared, hcheck, h.emptyEnds, h.floatTuples]

/-- What lowering makes of a program whose declarations are in a table. -/
structure Compiled (g : SymbolTable) (program : Program) (functions : List Function) : Prop where
  idle : Idle g
  registry : g.Registry
  names : g.names.Perm (declaredNames program)
  codes : List.Forall₂ (DeclarationCode program g) program.statements functions
  fields : ∀ name fields, g.struct? name = some fields → ∀ field ∈ fields, field.2.Storable
  /-- No exported function has the name of the exported memory. -/
  memory : ∀ location header body, Stmt.function location header body ∈ program.statements →
    header.exported → g.exportsMemory → header.name ≠ memoryName
  strings : g.strings.limit < addressSpace

/-! ### Lowering accepted programs

The functions in the order of the declarations, and the allocator behind them. -/

/-- Every name that can be called was declared, so it has been given a number. -/
theorem complete_of_names {g : SymbolTable} {program : Program}
    (hnames : g.names.Perm (declaredNames program)) :
    LoweringContext.Complete ⟨g, functionIndices program, allocatorIndex program, 0⟩ := by
  have hindex (name : String) (h : name ∈ g.names) :
      ∃ index, (functionIndices program).lookup name = some index := by
    refine Option.isSome_iff_exists.mp (SymbolTable.lookup_isSome_iff.mpr ?_)
    rw [functionIndices]
    refine (List.zipIdx_map_fst _ (declaredNames program)).symm ▸ ?_
    exact hnames.mem_iff.mp h
  intro callee signature hcallee
  unfold SymbolTable.callable? at hcallee
  unfold LoweringContext.index?
  split at hcallee
  · rename_i hprint
    exact ⟨_, if_pos hprint⟩
  rename_i hprint
  rw [if_neg hprint]
  split at hcallee
  · rename_i hstring
    exact ⟨_, if_pos hstring⟩
  rename_i hstring
  rw [if_neg hstring]
  -- what can be called is of the host, a declared function or the constructor of a struct
  refine hindex callee (List.mem_append.mpr ?_)
  split at hcallee
  · rename_i found hfound
    exact .inl (SymbolTable.lookup_isSome_iff.mp (by rw [← SymbolTable.function?, hfound]; rfl))
  · obtain ⟨fields, hfields, -⟩ := Option.map_eq_some_iff.mp hcallee
    exact .inr (SymbolTable.lookup_isSome_iff.mp (by rw [← SymbolTable.struct?, hfields]; rfl))

/-- The functions of a program and the allocator, with the rest of what a module is made of. -/
def assembled (g : SymbolTable) (functions : List Function) : Wasm.Descriptor where
  imports := hostImports
  functions := functions ++ [allocator]
  segments := g.strings.segments
  heapBase := g.heapBase
  memoryPages := Wasm.pagesThrough g.heapBase
  exportsMemory := g.exportsMemory

/-- Every accepted program is lowered, and the table at the end is the one of its declarations. -/
theorem generate_accepted {source : String} {options : CompileOptions} {program checked : Program}
    {t g : SymbolTable} (h : Accepted source options program t g checked) :
    ∃ functions, Compiled g checked functions ∧
      generate program t = .ok (assembled g functions) g := by
  obtain ⟨hliterals, hregular, hlimit, ht⟩ :=
    literalsFit_of_parse h.parsed (StringPool.limit_empty_lt options.memoryStart)
  have hdeclared : Declared program t g :=
    declared_of_declare h.declared (by rw [ht]; rfl) (by rw [ht]; rfl) (by rw [ht]; rfl)
  have hrest := hdeclared.rest
  have hwf := hdeclared.registry.wellFormed
  have hidle : Idle g := by
    refine ⟨?_, ?_, ?_⟩ <;> rw [hrest, ht] <;> rfl
  have hstrings : g.strings = t.strings := by rw [hrest]
  obtain ⟨g', hcheck⟩ := h.checked
  unfold checkProgram at hcheck
  obtain ⟨stmts, u, hstmts, hcheck⟩ := EStateM.bind_eq_ok_iff.mp hcheck
  obtain ⟨rfl, rfl⟩ := EStateM.pure_eq_ok_iff.mp hcheck
  have hsame := sameHeader_of_check hstmts
  -- the conditions on expressions come from parsing, and from what is accepted
  have hallowed : ∀ p ∈ program.scopedExprs g, Allowed g p := by
    intro p hp s hs
    have hmem := Program.mem_exprs_of_mem_scopedExprs hp
    rw [hstrings]
    exact ⟨hliterals p.2 hmem s hs, h.emptyEnds p.2 hmem s hs, h.floatTuples.parts p hp s hs⟩
  -- checking changes bodies only, so that the names and their order stay
  have hperm : g.names.Perm (declaredNames ⟨stmts⟩) := by
    rw [declaredNames, ← declaredNames_sameHeader hsame]
    exact hdeclared.names
  obtain ⟨hsameTable, functions, hlower, hcodes⟩ := declarations_adequate hidle hwf
    (complete_of_names hperm) hdeclared.structs
    (fun location header body hmem => (hdeclared.functions location header body hmem).1)
    hregular hallowed hstmts
  refine ⟨functions, ⟨hidle, hdeclared.registry, hperm, hcodes, ?_, ?_, hstrings ▸ hlimit⟩, ?_⟩
  · intro name fields hfields field hfield
    have hentry := mem_of_lookup hfields
    obtain ⟨hfits, -⟩ := hwf.structs _ hentry field hfield
    exact DataType.storable_of_fitsCell hfits (h.floatTuples.fields _ hentry field hfield).self
  · intro location header body' hmem
    obtain ⟨body, hbody⟩ := function_mem_of_sameHeader hsame hmem
    exact (hdeclared.functions location header body hbody).2
  · have hcount : hostImports.length + functions.length = allocatorIndex ⟨stmts⟩ := by
      rw [allocatorIndex, declaredNames, declaredNames_eq hcodes, List.length_map]
    have hcheck : checkProgram program g = .ok ⟨stmts⟩ g := by
      rw [checkProgram, EStateM.bind_of_ok hstmts, hsameTable]
      rfl
    simp only [generate, bind, EStateM.bind, semantic, h.declared, hcheck, hlower, hcount,
      ↓reduceIte, EStateM.get_apply, pure, EStateM.pure]
    rfl

/-! ### What compilation gives

The last two phases: the descriptor, and the bytes. -/

section Compilation

variable {source : String} {options : CompileOptions} {program checked : Program}
  {t g : SymbolTable} {d : Wasm.Descriptor}

/-- A program that is lowered is what its text compiles to. -/
theorem Accepted.compile_eq_ok (h : Accepted source options program t g checked)
    (hgenerate : generate program t = .ok d g) : compile source options = .ok d := by
  have hparse : parseReported source options =
      ⟨[.parsed program.statements.length t.strings.segments.length], .ok (program, t)⟩ := by
    rw [parseReported, if_neg (Nat.not_lt.mpr h.start), h.parsed]
  simp [compile, compileReported, hparse, Reported.andThen, lowerReported, hgenerate]

/-- A module has a binary form if it is valid. -/
theorem Accepted.compileToBytes_eq_ok_iff (h : Accepted source options program t g checked)
    (hgenerate : generate program t = .ok d g) {bytes : List UInt8} :
    compileToBytes source options = .ok bytes ↔
      (d.toModule memoryName).isValid ∧ Wasm.Binary.encode (d.toModule memoryName) = bytes := by
  have hcompile : (compileReported source options).result = .ok d := h.compile_eq_ok hgenerate
  simp only [compileToBytes, compileToBytesReported, Reported.andThen, hcompile]
  unfold emitReported
  by_cases hvalid : (d.toModule memoryName).isValid
  · simp [hvalid]
  · simp [hvalid]

end Compilation

/-! ### Calls

From a name to the declaration that is called. -/

/-- What a call of a name reaches, with the signature of the name and the number of the function. -/
inductive Resolves (g : SymbolTable) (program : Program) (functions : List Function) :
    String → Signature → Nat → Prop
  | print : Resolves g program functions printName ⟨[.i32], .none⟩ printIndex
  | printString : Resolves g program functions printStringName ⟨[.string], .none⟩ printStringIndex
  | struct {k name fields} (hfields : g.struct? name = some fields)
    (hfunction : functions[k]? = some (constructor (allocatorIndex program) name fields)) :
    Resolves g program functions name ⟨fields.map (·.2), .struct name fields⟩
      (hostImports.length + k)
  | function {k location header body signature function}
    (hstmt : program.statements[k]? = some (.function location header body))
    (hsignature : g.function? header.name = some signature)
    (hlength : signature.params.length = header.params.length)
    (hfunction : functions[k]? = some function)
    (hcode : FunctionCode program g header body signature function) :
    Resolves g program functions header.name signature (hostImports.length + k)

section Compiled

variable {g : SymbolTable} {program : Program} {functions : List Function}

/-- What is related at one place is found at the same place on the other side. -/
theorem getElem?_of_forall₂ {α β : Type} {R : α → β → Prop} {xs : List α} {ys : List β} {k : Nat}
    {y : β} (h : List.Forall₂ R xs ys) (hy : ys[k]? = some y) : ∃ x, xs[k]? = some x ∧ R x y := by
  induction h generalizing k with
  | nil => cases hy
  | @cons x y' xs ys hR _ ih =>
    cases k with
    | zero =>
      obtain rfl : y' = y := by simpa using hy
      exact ⟨x, rfl, hR⟩
    | succ k => simpa using ih (by simpa using hy)

/-- A name that is declared as a struct is not one of a function. -/
theorem Compiled.function?_eq_none (h : Compiled g program functions) {name : String}
    {fields : List (String × DataType)} (hfields : g.struct? name = some fields) :
    g.function? name = none := by
  have hstruct : name ∈ g.structs.map (·.1) :=
    SymbolTable.lookup_isSome_iff.mp (by rw [← SymbolTable.struct?, hfields]; rfl)
  have hdisjoint := (List.nodup_append.mp h.registry.nodup).2.2
  have hnot : name ∉ g.functions.map (·.1) := fun hfunction => hdisjoint _ hfunction _ hstruct rfl
  rwa [← SymbolTable.lookup_isSome_iff, Bool.not_eq_true, Option.isSome_eq_false_iff,
    Option.isNone_iff_eq_none] at hnot

/-- A name that can be called is that of a function or of a struct, and its function stands under
its number. -/
theorem Compiled.resolves (h : Compiled g program functions) {c : LoweringContext} {callee : String}
    {signature : Signature} {index : Nat} (hindices : c.indices = functionIndices program)
    (hcallee : g.callable? callee = some signature) (hindex : c.index? callee = some index) :
    Resolves g program functions callee signature index := by
  unfold SymbolTable.callable? at hcallee
  unfold LoweringContext.index? at hindex
  by_cases hprint : callee = printName
  · rw [if_pos hprint] at hcallee hindex
    rw [hprint, ← Option.some.inj hcallee, ← Option.some.inj hindex]
    exact .print
  by_cases hstring : callee = printStringName
  · rw [if_neg hprint, if_pos hstring] at hcallee hindex
    rw [hstring, ← Option.some.inj hcallee, ← Option.some.inj hindex]
    exact .printString
  rw [if_neg hprint, if_neg hstring] at hcallee hindex
  -- the number is the position of the name among those declared
  rw [hindices, functionIndices] at hindex
  obtain ⟨hle, hname⟩ := List.mk_mem_zipIdx_iff_le_and_getElem?_sub.mp (mem_of_lookup hindex)
  obtain ⟨k, rfl⟩ := Nat.exists_eq_add_of_le hle
  rw [Nat.add_sub_cancel_left, declaredNames, declaredNames_eq h.codes, List.getElem?_map,
    Option.map_eq_some_iff] at hname
  obtain ⟨function, hfunction, rfl⟩ := hname
  obtain ⟨stmt, hstmt, hcode⟩ := getElem?_of_forall₂ h.codes hfunction
  cases hcode with
  | struct hfields =>
    simp only [constructor, h.function?_eq_none hfields, hfields, Option.map_some,
      Option.some.injEq] at hcallee
    subst hcallee
    exact .struct hfields hfunction
  | @function location header body _ _ hsignature hlength hcode =>
    have hname : function.name = header.name := by
      cases hcode
      rfl
    simp only [hname, hsignature, Option.some.injEq] at hcallee
    subst hcallee
    rw [hname]
    exact .function hstmt hsignature hlength hfunction hcode

end Compiled

end WasmCompiler
