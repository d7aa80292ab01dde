import WasmCompiler.Proofs.Lowering.Programs
import WasmCompiler.Proofs.Validation.Code

/-!
# Accepted programs give valid modules

Every function of a compiled program is valid: those of the program because the code of statements
is, the constructors and the allocator by their own. What is left is the module around them: its
signatures are numbered, its exports have different names and its memory is not too large.

`generate_isValid` puts this together for every accepted text. Only the limits on sizes that an
engine sets on its own are assumed (`Descriptor.WithinLimits`).

`body_of_mem` is about the functions and `toModule_isValid` about the module.
-/

namespace WasmCompiler

open Lowering
open Wasm (Code Descriptor ExportEntry FuncType Function Instr Module ValueType)
open Wasm.Validation

/-! ### Functions

Every kind of function that a compiled program has. -/

/-- The signatures of all functions of a compiled program, in the order of their numbers. -/
def signatures (functions : List Function) : List FuncType :=
  hostImports.map (·.type) ++ (functions ++ [allocator]).map (·.type)

/-- What validation knows in a function, before its body is entered. -/
def validationContext (functions : List Function) (type : FuncType) (locals : List ValueType) :
    Context :=
  ⟨(signatures functions).toArray, 1, 1, (type.params ++ locals).toArray, type.results, []⟩

/-- What validation knows in the body of a function. -/
def bodyContext (functions : List Function) (type : FuncType) (locals : List ValueType) :
    Context :=
  { validationContext functions type locals with labels := [type.results] }

section Functions

variable {g : SymbolTable} {program : Program} {functions : List Function}

theorem signatures_declared {k : Nat} {function : Function}
    (h : functions[k]? = some function) :
    (signatures functions)[hostImports.length + k]? = some function.type := by
  have hlt : k < functions.length := (List.getElem?_eq_some_iff.mp h).1
  have hlt' : k < (functions.map (·.type)).length := by rwa [List.length_map]
  rw [signatures, List.getElem?_append_right (by simp), List.length_map, Nat.add_sub_cancel_left,
    List.map_append, List.getElem?_append_left hlt', List.getElem?_map, h]
  rfl

theorem signatures_allocator (h : Compiled g program functions) :
    (signatures functions)[allocatorIndex program]? = some ⟨[.i32], [.i32]⟩ := by
  rw [allocatorIndex, declaredNames, declaredNames_eq h.codes, List.length_map, signatures,
    List.getElem?_append_right (by simp), List.length_map, Nat.add_sub_cancel_left, List.map_append,
    List.getElem?_append_right (by simp), List.length_map, Nat.sub_self]
  rfl

/-- A call finds a function of the signature that its name has. -/
theorem signatures_resolves {callee : String} {signature : Signature} {index : Nat}
    (h : Resolves g program functions callee signature index) :
    (signatures functions)[index]? =
      some ⟨DataType.machineTypesAll signature.params, signature.result.machineTypes⟩ := by
  cases h with
  | print => rfl
  | printString => rfl
  | struct _ hfunction => exact signatures_declared hfunction
  | function _ _ _ hfunction hcode =>
    rw [signatures_declared hfunction]
    cases hcode
    rfl

theorem hasLocals_toArray {v : Context} {locals : List ValueType}
    (h : v.locals = locals.toArray) : HasLocals v 0 locals := by
  intro k type hk
  rw [h, Nat.zero_add, List.getElem?_toArray]
  exact hk

/-- The signatures and the locals of a compiled function are those it is lowered with. -/
theorem fitsFunction (h : Compiled g program functions) {v : Context} {scratch : List ValueType}
    {base : Nat} (hfunctions : v.functions = (signatures functions).toArray)
    (hmemory : 0 < v.memories) (hscratch : HasLocals v base scratch) :
    FitsFunction v ⟨functionIndices program, allocatorIndex program, base⟩ g scratch := by
  have hget (index : Nat) : v.functions[index]? = (signatures functions)[index]? := by
    rw [hfunctions, List.getElem?_toArray]
  refine ⟨hmemory, hscratch, fun callee signature index hcallee hindex => ?_, ?_, ?_, ?_⟩
  · rw [hget]
    exact signatures_resolves (h.resolves rfl hcallee hindex)
  · rw [hget]
    exact signatures_allocator h
  · rw [hget]
    rfl
  · rw [hget]
    rfl

/-- The body of a function leaves its results, or never reaches its end. -/
theorem body_of_functionCode (h : Compiled g program functions) {header : FunctionHeader}
    {body : List Stmt} {signature : Signature} {function : Function}
    (hlength : signature.params.length = header.params.length)
    (hcode : FunctionCode program g header body signature function) :
    Wasm.Validation.body (validationContext functions function.type function.locals)
      function.body := by
  cases hcode with
  | @intro t t' scratch code hparams hbody =>
    have hzip : (header.params.zip signature.params).map (·.2) = signature.params :=
      List.map_snd_zip (Nat.le_of_eq hlength)
    obtain ⟨hlayout, -⟩ := hparams.layout (layout_enterFunction h.idle) rfl
    obtain ⟨hlayout', -⟩ := hparams.frame h.idle hbody
    rw [hzip] at hlayout hlayout'
    rw [List.nil_append] at hlayout
    have hg : g.SameGlobals t := g.sameGlobals_enterFunction.trans hparams.sameGlobals
    let types := DataType.machineTypesAll signature.params
    let declared := t'.declared.flatMap (·.type.machineTypes)
    let v := bodyContext functions ⟨types, signature.result.machineTypes⟩ (declared ++ scratch)
    -- the slots, and after them the scratch locals
    have hlocals : HasLocals v 0 (t'.slotTypes types ++ scratch) :=
      hasLocals_toArray (by rw [SymbolTable.slotTypes, List.append_assoc]; rfl)
    have hscratch : HasLocals v t'.nextSlot scratch := by
      rw [hlayout'.nextSlot, ← Nat.zero_add (t'.slotTypes types).length]
      exact hlocals.drop
    have hf : FitsFunction v _ g scratch := fitsFunction h rfl Nat.one_pos hscratch
    have hplaced : Placed v g types t' :=
      ⟨hlayout', hg.trans hbody.sameGlobals, hlocals.mono (List.prefix_append _ _)⟩
    have hbalanced := hbody.balanced hf rfl hlayout hplaced hg (List.prefix_refl _)
    obtain ⟨unreached, hrun⟩ := hbalanced false
    cases hresult : signature.result.isNone with
    | true =>
      refine body_of_endsWith (s := ⟨[], unreached⟩) ?_ ?_
      · rw [if_pos rfl, List.append_nil]
        exact hrun
      · rw [DataType.machineTypes_of_isNone hresult]
        rfl
    | false =>
      refine body_of_endsWith (s := .dead) ?_ (endsWith_dead _)
      rw [if_neg Bool.false_ne_true, instrs_append]
      exact hrun ▸ rfl

/-- The fields of a struct are stored from the parameters of its constructor. -/
theorem typed_storeFields {v : Context} {base : Nat} (hmemory : 0 < v.memories)
    (hbase : v.locals[base]? = some .i32) {fields : List (String × DataType)} {position : Nat}
    (hfields : ∀ field ∈ fields, field.2.Storable)
    (hlocals : HasLocals v position (DataType.machineTypesAll (fields.map (·.2)))) :
    Typed v [] (storeFields base position fields) [] := by
  induction fields generalizing position with
  | nil => exact .nil
  | cons field fields ih =>
    obtain ⟨name, type⟩ := field
    rw [List.forall_mem_cons] at hfields
    obtain ⟨htype, hfields⟩ := hfields
    change type.Storable at htype
    -- a field takes exactly one local
    have hlocals' : HasLocals v position
        ([cellType type] ++ DataType.machineTypesAll (fields.map (·.2))) := by
      rw [← htype]
      exact hlocals
    have hfield : v.locals[position]? = some (cellType type) := hlocals' 0 _ rfl
    have hstore := (Typed.localGet hbase).cons
      (((Typed.localGet hfield).onto [.i32]).cons (.store hmemory _ (position * cellSize)))
    exact hstore.append (ih hfields hlocals'.drop)

/-- A constructor leaves the address of the new block. -/
theorem body_constructor (h : Compiled g program functions) {name : String}
    {fields : List (String × DataType)} (hfields : g.struct? name = some fields) :
    Wasm.Validation.body (validationContext functions
      (constructor (allocatorIndex program) name fields).type
      (constructor (allocatorIndex program) name fields).locals)
      (constructor (allocatorIndex program) name fields).body := by
  let params := DataType.machineTypesAll (fields.map (·.2))
  let v := bodyContext functions ⟨params, [.i32]⟩ [.i32]
  have hlocals : HasLocals v 0 (params ++ [.i32]) := hasLocals_toArray rfl
  have hbase : v.locals[params.length]? = some .i32 := by
    rw [← Nat.zero_add params.length]
    exact hlocals.drop 0 _ rfl
  have hallocator : v.functions[allocatorIndex program]? = some ⟨[.i32], [.i32]⟩ := by
    rw [← signatures_allocator h]
    exact List.getElem?_toArray
  -- the block is reserved and kept in the local behind the parameters
  have hreserve := (Typed.i32Const (.ofNat (DataType.structSize fields))).cons
    ((Typed.call hallocator).cons (.localSet hbase))
  have hstore := typed_storeFields Nat.one_pos hbase (h.fields name fields hfields)
    (hlocals.mono (List.prefix_append _ _))
  have hbody := (hreserve.append hstore).append (.localGet hbase)
  exact body_of_endsWith (hbody .empty) rfl

theorem body_allocator (functions : List Function) :
    Wasm.Validation.body (validationContext functions allocator.type allocator.locals)
      allocator.body := rfl

/-- Every function of a compiled program is valid. -/
theorem body_of_mem (h : Compiled g program functions) {function : Function}
    (hmem : function ∈ functions ++ [allocator]) :
    Wasm.Validation.body (validationContext functions function.type function.locals)
      function.body := by
  rcases List.mem_append.mp hmem with hmem | hmem
  · obtain ⟨k, hk⟩ := List.getElem?_of_mem hmem
    obtain ⟨stmt, -, hcode⟩ := getElem?_of_forall₂ h.codes hk
    cases hcode with
    | struct hfields => exact body_constructor h hfields
    | function _ hlength hcode => exact body_of_functionCode h hlength hcode
  · obtain rfl := List.mem_singleton.mp hmem
    exact body_allocator functions

end Functions

/-! ### Modules

Signatures and exports, whatever the functions do. -/

namespace Wasm

/-- No signature is lost when each is entered once. -/
theorem mem_distinctTypes {type : FuncType} {types : List FuncType} :
    type ∈ distinctTypes types ↔ type ∈ types := by
  have hfold (seen : List FuncType) :
      type ∈ types.foldl (fun seen t => if seen.contains t then seen else seen ++ [t]) seen ↔
        type ∈ seen ∨ type ∈ types := by
    induction types generalizing seen with
    | nil => simp
    | cons t types ih =>
      rw [List.foldl_cons, ih]
      by_cases hseen : t ∈ seen
      · rw [if_pos (by simpa using hseen), List.mem_cons]
        constructor
        · exact Or.imp_right .inr
        · rintro (h | rfl | h)
          · exact .inl h
          · exact .inl hseen
          · exact .inr h
      · rw [if_neg (by simpa using hseen), List.mem_append, List.mem_singleton, List.mem_cons,
          or_assoc]
  rw [distinctTypes, hfold]
  simp

/-- The number of a signature leads back to it. -/
theorem getElem?_typeIndex {type : FuncType} {table : List FuncType} (h : type ∈ table) :
    table[typeIndex table type]? = some type := by
  have hlt : typeIndex table type < table.length :=
    List.findIdx_lt_length_of_exists ⟨type, h, by simp⟩
  have hfound := List.findIdx_getElem (w := hlt)
  rw [List.getElem?_eq_getElem hlt]
  exact congrArg some (of_decide_eq_true hfound)

/-- Each number leads back to its signature. -/
theorem mapM_getElem? {types table : List FuncType} (h : ∀ type ∈ types, type ∈ table) :
    (types.map (typeIndex table)).mapM (table[·]?) = some types := by
  induction types with
  | nil => rfl
  | cons type types ih =>
    rw [List.forall_mem_cons] at h
    rw [List.map_cons, List.mapM_cons, getElem?_typeIndex h.1, ih h.2]
    rfl

theorem distinctNames_of_nodup {names : List String} (h : names.Nodup) : distinctNames names := by
  induction names with
  | nil => rfl
  | cons name names ih =>
    rw [List.nodup_cons] at h
    simp [distinctNames, h.1, ih h.2]

namespace Descriptor

/-- The sizes that an engine limits on its own, whatever the code does. -/
structure WithinLimits (d : Descriptor) : Prop where
  params : ∀ f ∈ d.functions, f.type.params.length ≤ maxParams
  results : ∀ f ∈ d.functions, f.type.results.length ≤ maxResults
  locals : ∀ f ∈ d.functions, (f.type.params ++ f.locals).length ≤ maxLocals
  names : ∀ f ∈ d.functions, f.exported → isValidName f.name

instance (d : Descriptor) : Decidable d.WithinLimits :=
  decidable_of_iff
    ((∀ f ∈ d.functions, f.type.params.length ≤ maxParams) ∧
      (∀ f ∈ d.functions, f.type.results.length ≤ maxResults) ∧
      (∀ f ∈ d.functions, (f.type.params ++ f.locals).length ≤ maxLocals) ∧
      ∀ f ∈ d.functions, f.exported → isValidName f.name)
    ⟨fun ⟨hparams, hresults, hlocals, hnames⟩ => ⟨hparams, hresults, hlocals, hnames⟩,
      fun h => ⟨h.params, h.results, h.locals, h.names⟩⟩

/-- The exports have the names of the exported functions, in order. -/
theorem exportedFunctions_map_name (index : Nat) (functions : List Function) :
    (exportedFunctions index functions).map (·.name) =
      (functions.filter (·.exported)).map (·.name) := by
  induction functions generalizing index with
  | nil => rfl
  | cons f functions ih =>
    cases hexported : f.exported <;> simp [exportedFunctions, hexported, ih]

/-- An export is a function of the program, by its number. -/
theorem mem_exportedFunctions {index : Nat} {functions : List Function} {entry : ExportEntry}
    (h : entry ∈ exportedFunctions index functions) :
    (∃ f ∈ functions, f.exported ∧ entry.name = f.name) ∧
      ∃ k < functions.length, entry.target = .function (index + k) := by
  induction functions generalizing index with
  | nil => cases h
  | cons f functions ih =>
    -- a later function has an index one higher
    have hrest (h : entry ∈ exportedFunctions (index + 1) functions) :
        (∃ f' ∈ f :: functions, f'.exported ∧ entry.name = f'.name) ∧
          ∃ k < (f :: functions).length, entry.target = .function (index + k) := by
      obtain ⟨⟨f', hmem, hf'⟩, k, hk, htarget⟩ := ih h
      refine ⟨⟨f', List.mem_cons_of_mem _ hmem, hf'⟩, k + 1, Nat.succ_lt_succ hk, ?_⟩
      rw [htarget, Nat.add_right_comm, Nat.add_assoc]
    rw [exportedFunctions] at h
    split at h
    · rename_i hexported
      rcases List.mem_cons.mp h with rfl | h
      · exact ⟨⟨f, List.mem_cons_self, hexported, rfl⟩, 0, Nat.succ_pos _, rfl⟩
      · exact hrest h
    · exact hrest h

/-- The signatures of the module are those of the descriptor. -/
theorem functionTypes?_toModule (d : Descriptor) (memoryName : String) :
    (d.toModule memoryName).functionTypes? = some d.allTypes := by
  have hmap : (d.toModule memoryName).imports.map (·.type) ++ (d.toModule memoryName).functions =
      d.allTypes.map (typeIndex d.typeTable) := by
    simp only [toModule, allTypes, List.map_append, List.map_map]
    rfl
  rw [Module.functionTypes?, hmap]
  exact mapM_getElem? fun type htype => mem_distinctTypes.mpr htype

/-- A descriptor gives a valid module if its functions are valid, its exports have different names
and its memory is not too large. -/
theorem toModule_isValid {d : Descriptor} {memoryName : String} (hlimits : d.WithinLimits)
    (himports : ∀ i ∈ d.imports, i.type.isValid ∧ isValidName i.module ∧ isValidName i.name)
    (hmemory : isValidName memoryName) (hpages : d.memoryPages ≤ maxPages)
    (hnames : ((d.exportEntries memoryName).map (·.name)).Nodup)
    (hbodies : ∀ f ∈ d.functions,
      body ⟨d.allTypes.toArray, 1, 1, (f.type.params ++ f.locals).toArray, f.type.results, []⟩
        f.body) :
    (d.toModule memoryName).isValid := by
  -- imported functions come first, so the rest are the defined ones
  have hdefined : d.allTypes.drop (d.toModule memoryName).imports.length =
      d.functions.map (·.type) := by
    have hlength : (d.toModule memoryName).imports.length = (d.imports.map (·.type)).length := by
      simp [toModule]
    rw [allTypes, hlength, List.drop_left]
  rw [Module.isValid, functionTypes?_toModule]
  simp only [hdefined, Bool.and_eq_true]
  have htypes : (d.toModule memoryName).types.all (·.isValid) := by
    refine List.all_eq_true.mpr fun type htype => ?_
    rcases List.mem_append.mp (mem_distinctTypes.mp htype) with htype | htype
    · obtain ⟨i, hi, rfl⟩ := List.mem_map.mp htype
      exact (himports i hi).1
    · obtain ⟨f, hf, rfl⟩ := List.mem_map.mp htype
      simp [FuncType.isValid, hlimits.params f hf, hlimits.results f hf]
  have himported : (d.toModule memoryName).imports.all
      fun i => isValidName i.module && isValidName i.name := by
    refine List.all_eq_true.mpr fun entry hentry => ?_
    obtain ⟨i, hi, rfl⟩ := List.mem_map.mp hentry
    exact Bool.and_eq_true_iff.mpr (himports i hi).2
  have hexported : (d.toModule memoryName).entries.all
      fun e => isValidName e.name && (d.toModule memoryName).hasTarget e.target := by
    refine List.all_eq_true.mpr fun entry hentry => ?_
    rcases List.mem_append.mp hentry with hentry | hentry
    · split at hentry
      · obtain rfl := List.mem_singleton.mp hentry
        simp [hmemory, Module.hasTarget, toModule]
      · cases hentry
    · obtain ⟨⟨f, hf, hexports, hname⟩, k, hk, htarget⟩ := mem_exportedFunctions hentry
      simp [hname, hlimits.names f hf hexports, htarget, Module.hasTarget, toModule, hk]
  have hcodes : ((d.functions.map (·.type)).zip (d.toModule memoryName).codes).all
      fun pair => (d.toModule memoryName).hasValidCode d.allTypes.toArray pair.1 pair.2 := by
    refine List.all_eq_true.mpr fun pair hpair => ?_
    rw [toModule, List.zip_map', List.mem_map] at hpair
    obtain ⟨f, hf, rfl⟩ := hpair
    exact Bool.and_eq_true_iff.mpr ⟨decide_eq_true (hlimits.locals f hf), hbodies f hf⟩
  refine ⟨⟨⟨⟨⟨⟨⟨⟨htypes, rfl⟩, ?_⟩, himported⟩, hexported⟩, distinctNames_of_nodup hnames⟩, ?_⟩,
    ?_⟩, hcodes⟩
  · simpa [toModule] using hpages
  · simp [toModule]
  · simp [toModule]

end Descriptor

end Wasm

/-! ### Accepted programs

The exports of a compiled program and its module. -/

section Compiled

variable {g : SymbolTable} {program : Program} {functions : List Function}

/-- No two exported functions share a name. -/
theorem nodup_exported (h : Compiled g program functions) :
    ((functions.filter (·.exported)).map (·.name)).Nodup := by
  refine List.Nodup.sublist (List.filter_sublist.map _) ?_
  rw [← declaredNames_eq h.codes]
  exact h.names.nodup_iff.mp h.registry.nodup

/-- No exported function has the name of the exported memory. -/
theorem memoryName_not_mem_exported (h : Compiled g program functions)
    (hexports : g.exportsMemory) :
    memoryName ∉ (functions.filter (·.exported)).map (·.name) := by
  intro hmem
  obtain ⟨f, hf, hname⟩ := List.mem_map.mp hmem
  obtain ⟨hf, hexported⟩ := List.mem_filter.mp hf
  obtain ⟨k, hk⟩ := List.getElem?_of_mem hf
  obtain ⟨stmt, hstmt, hcode⟩ := getElem?_of_forall₂ h.codes hk
  cases hcode with
  | struct _ => cases hexported
  | @function location header body _ _ _ _ hcode =>
    cases hcode
    rw [Bool.or_eq_true, decide_eq_true_eq] at hexported
    -- a function is exported by its header, or as the main function
    rcases hexported with hexported | hmain
    · exact h.memory location header body (List.mem_of_getElem? hstmt) hexported hexports hname
    · have hnames : mainName = memoryName := hmain.symm.trans hname
      exact absurd hnames (by decide)

/-- The exports of a compiled program have different names. -/
theorem nodup_exportEntries (h : Compiled g program functions) :
    (((assembled g functions).exportEntries memoryName).map (·.name)).Nodup := by
  have hfilter : (functions ++ [allocator]).filter (·.exported) =
      functions.filter (·.exported) := by
    rw [List.filter_append]
    exact List.append_nil _
  have hnodup := nodup_exported h
  rw [Descriptor.exportEntries, List.map_append, Descriptor.exportedFunctions_map_name, assembled,
    hfilter]
  split
  · rename_i hexports
    exact List.nodup_cons.mpr ⟨memoryName_not_mem_exported h hexports, hnodup⟩
  · exact hnodup

/-- A compiled program within the limits on sizes is a valid module. -/
theorem Compiled.isValid (h : Compiled g program functions)
    (hlimits : (assembled g functions).WithinLimits) :
    ((assembled g functions).toModule memoryName).isValid := by
  have himports : ∀ i ∈ hostImports,
      i.type.isValid ∧ Wasm.isValidName i.module ∧ Wasm.isValidName i.name := by decide
  refine Descriptor.toModule_isValid hlimits himports (by decide) ?_ (nodup_exportEntries h)
    fun f hf => body_of_mem h hf
  -- the strings end inside the address space
  have hlimit := h.strings
  simp only [assembled, Wasm.pagesThrough, SymbolTable.heapBase, addressSpace, Wasm.pageSize,
    maxPages] at hlimit ⊢
  omega

end Compiled

/-- **Accepted programs compile to valid modules.** Lowering succeeds, and within the limits on
sizes the module is valid, so that its binary form is what compilation gives. -/
theorem generate_isValid {source : String} {options : CompileOptions} {program checked : Program}
    {t g : SymbolTable} (h : Accepted source options program t g checked) :
    ∃ d, generate program t = .ok d g ∧ compile source options = .ok d ∧
      (d.WithinLimits → (d.toModule memoryName).isValid ∧
        compileToBytes source options = .ok (Wasm.Binary.encode (d.toModule memoryName))) := by
  obtain ⟨functions, hcompiled, hgenerate⟩ := generate_accepted h
  refine ⟨_, hgenerate, h.compile_eq_ok hgenerate, fun hlimits => ?_⟩
  have hvalid := hcompiled.isValid hlimits
  exact ⟨hvalid, (h.compileToBytes_eq_ok_iff hgenerate).mpr ⟨hvalid, rfl⟩⟩

/-- A text with a struct, a loop and an array. -/
def cellSource : String :=
  "struct P \x7b x: i32 \x7d " ++
    "func f(p: P) -> i32 \x7b while p.x < 2 \x7b p.x = 2; \x7d return [p.x][0]; \x7d"

/-- The sample is accepted and within the limits, so its module is valid. -/
theorem generate_isValid_cell :
    ∃ program t g checked d, Accepted cellSource {} program t g checked ∧
      generate program t = .ok d g ∧ d.WithinLimits ∧ (d.toModule memoryName).isValid := by
  have haccepts : accepts cellSource {} := by decide +kernel
  obtain ⟨program, t, g, checked, h⟩ := accepts_iff.mp haccepts
  obtain ⟨d, hgenerate, hcompile, hvalid⟩ := generate_isValid h
  have hwithin : (compile cellSource {}).toOption.all fun d => decide d.WithinLimits := by
    decide +kernel
  rw [hcompile] at hwithin
  have hlimits : d.WithinLimits := of_decide_eq_true hwithin
  exact ⟨program, t, g, checked, d, h, hgenerate, hlimits, (hvalid hlimits).1⟩

end WasmCompiler
