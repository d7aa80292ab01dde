import WasmCompiler.Proofs.Memory.Strings
import WasmCompiler.Proofs.Semantics.Watched
import WasmCompiler.Proofs.Simulation.Programs
import WasmCompiler.Proofs.Validation.Module

/-!
# Memory below the heap

A program begins with its heap right behind its string literals. Constructors and array literals
write only into blocks that they have just taken from the heap, so the literals and the bytes before
them can change in one way only: through an assignment to a field, where the struct is whatever
address a variable or a cell holds. `reserved_kept` says that a call which assigns to no field below
the heap keeps them, as long as the memory has not all pages there are.

* `Accepted.laid` places the string literals;
* `Compiled.bytes_kept` carries what an evaluation keeps (`careful_call`) over to runs of the
  machine;
* `instantiate?_toModule` is the state in which the host calls the program.
-/

namespace WasmCompiler

open Lowering
open Source (Datum HeapAbove Setting Watched.call World)
open Wasm (Descriptor Environment Function Machine Memory Store Value pageSize pagesThrough)
open Wasm.Validation (maxPages)

/-! ### The literals of a text

The pool that parsing leaves, as the rules of the parser give it. -/

namespace Parse

theorem operandRules_true (I : Parser → Prop) :
    OperandRules I (fun _ _ => True) fun _ _ => True :=
  ⟨fun _ _ => trivial, fun _ => trivial, trivial, fun _ => trivial, trivial, fun _ => trivial,
    fun _ => trivial, fun _ => trivial, fun _ => trivial⟩

theorem extensionRules_true :
    ExtensionRules (fun _ _ => True) (fun _ _ => True) fun _ _ => True :=
  ⟨fun _ => trivial, fun _ _ => trivial, fun _ => trivial, fun _ _ => trivial⟩

/-- Parsing keeps the records one after another. -/
theorem invariant_laid (base : Nat) : Invariant fun p => p.strings.Laid base where
  advance h hp := by
    rw [(strings_advance h).2]
    exact hp
  intern h hp := by
    unfold intern at h
    split at h
    · rename_i offset strings hintern
      obtain ⟨-, rfl⟩ := EStateM.Result.ok.inj h
      exact hp.intern? hintern
    · cases h

end Parse

/-- The records of all literals of a text lie one after another. -/
theorem laid_of_parse {base : Nat} {t t' : SymbolTable} {source : String} {program : Program}
    (h : t.parse source = (.ok program, t')) (ht : t.strings.Laid base) : t'.strings.Laid base := by
  have hprogram := Parse.makes_program (E := fun _ _ => True) (Parse.invariant_laid base)
    (fun _ _ _ _ h => h) fun k _ =>
      Parse.makes_expression (P := fun _ _ _ _ => True) (Parse.invariant_laid base)
        (fun _ _ _ _ _ h => h) (fun _ _ _ _ _ _ h => h) (fun _ => Parse.operandRules_true _)
        (fun _ _ _ => Parse.extensionRules_true) (fun _ _ _ _ _ h => h) k Parse.lowest
  obtain ⟨_, hparse, rfl⟩ := SymbolTable.parse_eq_ok_iff.mp h
  obtain ⟨p, p', hstart, hrun, rfl⟩ := Parse.parseProgram_eq_ok_iff.mp hparse
  have hp : p.strings.Laid base := by
    rw [(Parse.start_eq_ok hstart).1]
    exact ht
  exact (hprogram p p' _ hrun hp).1

/-- The literals of an accepted text begin where they should. -/
theorem Accepted.laid {source : String} {options : CompileOptions} {program checked : Program}
    {t g : SymbolTable} (h : Accepted source options program t g checked) :
    g.strings.Laid (StringPool.empty options.memoryStart).limit := by
  obtain ⟨-, -, -, ht⟩ :=
    literalsFit_of_parse h.parsed (StringPool.limit_empty_lt options.memoryStart)
  have hdeclared : Declared program t g :=
    declared_of_declare h.declared (by rw [ht]; rfl) (by rw [ht]; rfl) (by rw [ht]; rfl)
  have hstart : options.symbols.strings.Laid (StringPool.empty options.memoryStart).limit :=
    StringPool.laid_empty options.memoryStart
  have hstrings : g.strings = t.strings := by rw [hdeclared.rest]
  rw [hstrings]
  exact laid_of_parse h.parsed hstart

/-! ### Programs that were compiled

From evaluations to the runs of compiled functions. -/

section Compiled

variable {g : SymbolTable} {program : Program} {functions : List Function} {d : Descriptor}

/-- Each field is a machine value of its own. -/
theorem length_le_machineTypesAll {fields : List (String × DataType)}
    (h : ∀ field ∈ fields, field.2.Storable) :
    fields.length ≤ (DataType.machineTypesAll (fields.map (·.2))).length := by
  induction fields with
  | nil => exact Nat.zero_le _
  | cons field fields ih =>
    rw [List.forall_mem_cons] at h
    have hfield : field.2.machineTypes.length = 1 := by
      rw [h.1]
      rfl
    have hrest := ih h.2
    rw [List.map_cons, DataType.machineTypesAll, List.length_append, hfield, List.length_cons]
    omega

/-- A constructor takes a parameter for each field, and a function may take only so many. -/
theorem Compiled.structSize_lt (h : Compiled g program functions)
    (hfunctions : d.functions = functions ++ [allocator])
    (hvalid : (d.toModule memoryName).isValid) {name : String} {fields : List (String × DataType)}
    (hfields : g.struct? name = some fields) : DataType.structSize fields < pageSize := by
  have hname : name ∈ g.names := by
    refine List.mem_append_right _ (SymbolTable.lookup_isSome_iff.mp ?_)
    rw [← SymbolTable.struct?, hfields]
    rfl
  obtain ⟨hprint, hstring⟩ := h.ne_host hname
  have hcallable : g.callable? name = some ⟨fields.map (·.2), .struct name fields⟩ := by
    simp only [SymbolTable.callable?, hprint, hstring, h.function?_eq_none hfields, hfields,
      if_false, Option.map_some]
  obtain ⟨index, hindex⟩ := complete_of_names h.names name _ hcallable
  -- the constructor of a declared struct is one of the functions
  have hconstructor : ∃ k : Nat,
      functions[k]? = some (constructor (allocatorIndex program) name fields) := by
    have hresolves := h.resolves rfl hcallable hindex
    generalize hsignature : Signature.mk (fields.map (·.2)) (.struct name fields) = signature
      at hresolves
    cases hresolves with
    | print => exact absurd rfl hprint
    | printString => exact absurd rfl hstring
    | struct hfields' hfunction =>
      obtain rfl := Option.some.inj (hfields.symm.trans hfields')
      exact ⟨_, hfunction⟩
    | function _ hfound _ _ _ =>
      rw [h.function?_eq_none hfields] at hfound
      cases hfound
  obtain ⟨k, hk⟩ := hconstructor
  have hmem : (constructor (allocatorIndex program) name fields).type ∈ d.typeTable := by
    refine Wasm.mem_distinctTypes.mpr (List.mem_append_right _ (List.mem_map_of_mem ?_))
    rw [hfunctions]
    exact List.mem_append_left _ (List.mem_of_getElem? hk)
  rw [Wasm.Module.isValid, Descriptor.functionTypes?_toModule] at hvalid
  simp only [Bool.and_eq_true] at hvalid
  have htype := List.all_eq_true.mp hvalid.1.1.1.1.1.1.1.1 _ hmem
  rw [Wasm.FuncType.isValid, Bool.and_eq_true, decide_eq_true_eq] at htype
  -- its parameters are the fields, and a valid function type has at most a thousand
  have hcount : fields.length ≤ 1000 :=
    Nat.le_trans (length_le_machineTypesAll (h.fields name fields hfields)) htype.1
  simp only [DataType.structSize, cellSize, pageSize]
  omega

/-- Where the evaluation of a call has a result, that is the result of every run that returns. -/
theorem Compiled.eq_of_ends (h : Compiled g program functions) (himports : d.imports = hostImports)
    (hfunctions : d.functions = functions ++ [allocator]) {callees : List Wasm.Callee}
    (hcallees : (d.toModule memoryName).callees? d.allTypes = some callees) {s : Setting}
    (hprogram : s.program = program) (hsymbols : s.symbols = g) {name : String}
    {signature : Signature} {index fuel stackRoom : Nat}
    (hsignature : g.function? name = some signature) (hindex : d.functionIndex? name = some index)
    {args : List Datum} (hargs : List.Forall₂ HasType args signature.params) {w w' : World}
    {value : Datum} (hcall : Source.call s fuel name args w = .ok (value, w'))
    {results : List Value} {store : Store}
    (hends : Environment.Ends ⟨callees.toArray, s.exportsMemory, s.grantsPages, stackRoom⟩ index
      (args.flatMap (·.values)) signature.result.width w.store (.ok (results, store))) :
    results = value.values ∧ store = w'.store := by
  obtain ⟨most, hloaded⟩ := loaded_toModule himports hcallees
  obtain ⟨k, function, hfunction, rfl, hresolves⟩ := h.resolves_function hsignature
  obtain rfl : hostImports.length + k = index := by
    rw [h.functionIndex?_eq himports hfunctions hfunction] at hindex
    exact Option.some.inj hindex
  -- with more room the run gives what the evaluation gives
  let enough := stackRoom + (fuel + 1) * most
  have hfollows := callFollows h (hfunctions ▸ hloaded s enough) hprogram hsymbols fuel hresolves
  obtain ⟨-, hruns⟩ := run_of_callFollows hfollows (Nat.le_add_left _ _) hargs w
  obtain ⟨steps, hrun⟩ := hruns (.ok (value.values, w'.store)) (by
    show Source.expected (Source.call s fuel function.name args w) = _
    rw [hcall]
    rfl)
  -- with less room it gives the same, or no result
  obtain ⟨steps', hrun'⟩ := hends
  rcases Machine.run_withRoom (Nat.le_add_right stackRoom _ : stackRoom ≤ enough) hrun with
    hless | hless
  · exact Prod.mk.inj (Except.ok.inj (Machine.run_unique hrun' hless))
  · cases Machine.run_unique hrun' hless

/-- If the evaluation of a call assigns to no field below a limit under the heap, then a run that
returns leaves the bytes below the limit as they were. -/
theorem Compiled.bytes_kept (h : Compiled g program functions) (himports : d.imports = hostImports)
    (hfunctions : d.functions = functions ++ [allocator])
    (hvalid : (d.toModule memoryName).isValid) {callees : List Wasm.Callee}
    (hcallees : (d.toModule memoryName).callees? d.allTypes = some callees) {s : Setting}
    (hprogram : s.program = program) (hsymbols : s.symbols = g)
    (hgrants : ∀ pages, s.grantsPages pages → pages ≤ maxPages) {name : String}
    {signature : Signature} {index fuel stackRoom limit : Nat}
    (hsignature : g.function? name = some signature) (hindex : d.functionIndex? name = some index)
    {args : List Datum} (hargs : List.Forall₂ HasType args signature.params) {w w' : World}
    {value : Datum} (hheap : HeapAbove limit w) (hpages : w.memory.pageCount ≤ maxPages)
    (hwatched : Watched.call limit s fuel name args w = .ok (value, w')) {results : List Value}
    {store : Store}
    (hends : Environment.Ends ⟨callees.toArray, s.exportsMemory, s.grantsPages, stackRoom⟩ index
      (args.flatMap (·.values)) signature.result.width w.store (.ok (results, store)))
    (hlast : store.memory.pageCount < maxPages) :
    w.memory.size ≤ store.memory.size ∧
      ∀ address < limit, store.memory.byte address = w.memory.byte address := by
  have hstructs : ∀ name fields, s.symbols.struct? name = some fields →
      DataType.structSize fields < pageSize := by
    intro name fields hfields
    rw [hsymbols] at hfields
    exact h.structSize_lt hfunctions hvalid hfields
  -- the watched evaluation is the evaluation, and it keeps what is below the limit
  rcases Source.careful_call hgrants hstructs limit fuel name args w hpages with
    hwrong | ⟨heq, hkept⟩
  · cases hwrong.symm.trans hwatched
  have hcall : Source.call s fuel name args w = .ok (value, w') := heq.symm.trans hwatched
  obtain ⟨-, rfl⟩ := h.eq_of_ends himports hfunctions hcallees hprogram hsymbols hsignature hindex
    hargs hcall hends
  have hkept := hkept value w' hwatched
  exact ⟨Nat.mul_le_mul_right _ hkept.grows, hkept.bytes hlast hheap⟩

end Compiled

/-- What a module runs in, given its functions and its memory. -/
theorem instantiate?_toModule {d : Descriptor} {callees : List Wasm.Callee} {memory : Memory}
    (hcallees : (d.toModule memoryName).callees? d.allTypes = some callees)
    (hmemory : (d.toModule memoryName).initialMemory? = some memory) :
    (d.toModule memoryName).instantiate? memoryName =
      some (⟨callees.toArray, (d.toModule memoryName).exportsMemory memoryName,
        (· ≤ maxPages), Wasm.stackRoom⟩, World.store ⟨memory, .ofNat d.heapBase, .initial⟩) := by
  simp only [Wasm.Module.instantiate?, Descriptor.functionTypes?_toModule, Option.bind_eq_bind,
    Option.bind_some, hcallees, hmemory]
  rfl

/-- **Memory below the heap is kept** by every call that returns, in a memory that has not all
pages, and that assigns to no field below the heap: the bytes before the literals are zero, and the
records of the literals are what they were. -/
theorem reserved_kept {source : String} {options : CompileOptions} {program checked : Program}
    {t g : SymbolTable} {bytes : List UInt8} (h : Accepted source options program t g checked)
    (hstart : options.memoryStart = defaultMemoryStart)
    (hbytes : compileToBytes source options = .ok bytes) :
    ∃ (d : Descriptor) (env : Environment) (w : World), generate program t = .ok d g ∧
      (d.toModule memoryName).instantiate? memoryName = some (env, w.store) ∧
      ∀ name signature index args fuel value w', g.function? name = some signature →
        d.functionIndex? name = some index → List.Forall₂ HasType args signature.params →
        Watched.call g.heapBase ⟨checked, g, env.exportsMemory, env.grantsPages⟩ fuel name args w =
          .ok (value, w') →
        ∀ results store, env.Ends index (args.flatMap (·.values)) signature.result.width w.store
            (.ok (results, store)) → store.memory.pageCount < maxPages →
          (∀ address < defaultMemoryStart, store.memory.byte address = 0) ∧
            ∀ s ∈ d.segments, store.memory.Holds s := by
  obtain ⟨functions, hcompiled, hgenerate⟩ := generate_accepted h
  obtain ⟨hvalid, -⟩ := (h.compileToBytes_eq_ok_iff hgenerate).mp hbytes
  -- the literals lie behind the first bytes
  have hlaid : g.strings.Laid defaultMemoryStart := by
    have hlaid := h.laid
    rwa [hstart] at hlaid
  obtain ⟨memory, hmemory, hsize, hholds, hzero⟩ := hlaid.exists_memory?
  have hcallees := callees?_toModule (d := assembled g functions) rfl
  let w : World := ⟨memory, .ofNat g.heapBase, .initial⟩
  refine ⟨_, _, w, hgenerate, instantiate?_toModule hcallees hmemory, ?_⟩
  intro name signature index args fuel value w' hsignature hindex hargs hwatched results store
    hends hpages
  have hbase : (UInt32.ofNat g.heapBase).toNat = g.heapBase :=
    UInt32.toNat_ofNat_of_lt' hlaid.limit_lt
  have hinside : g.heapBase < memory.size := by
    rw [hsize]
    exact StringPool.lt_pagesThrough _
  have hfirst : memory.pageCount ≤ maxPages := by
    have hlimit := hlaid.limit_lt
    simp only [Memory.size_eq, pagesThrough, pageSize, addressSpace, maxPages] at *
    omega
  have hheap : HeapAbove g.heapBase w :=
    ⟨Nat.le_of_eq hbase.symm, Nat.le_trans (Nat.le_of_eq hbase) (Nat.le_of_lt hinside)⟩
  obtain ⟨hgrows, hkept⟩ := hcompiled.bytes_kept rfl rfl hvalid hcallees rfl rfl
    (fun pages hgranted => of_decide_eq_true hgranted) hsignature hindex hargs hheap hfirst hwatched
    hends hpages
  refine ⟨fun address haddress => ?_, fun segment hsegment => ?_⟩
  · rw [hkept address (Nat.lt_of_lt_of_le haddress hlaid.base_le)]
    exact hzero address haddress
  · obtain ⟨-, hend⟩ := hlaid.inside segment hsegment
    refine Memory.bytes?_congr hgrows (fun k hk => ?_) (hholds segment hsegment)
    exact hkept _ (Nat.lt_of_lt_of_le (Nat.add_lt_add_left hk _) hend)

/-- A text that assigns to a field of a struct it has made. -/
def fieldSource : String :=
  "struct P \x7b x: i32 \x7d func main() \x7b let p = P(1); p.x = 2; print 'a'; \x7d"

/-- Whether a program, in the table of its declarations, has a function `main` without parameters
and result whose evaluation ends without an assignment to a field below the heap. -/
def mainEnds (checked : Program) (g : SymbolTable) (d : Descriptor) (fuel : Nat) : Bool :=
  match (d.toModule memoryName).instantiate? memoryName with
  | some (env, store) =>
    g.function? mainName = some ⟨[], .none⟩ &&
      (Watched.call g.heapBase ⟨checked, g, env.exportsMemory, env.grantsPages⟩ fuel mainName []
        ⟨store.memory, store.globals.getD 0 0, store.host⟩).toBool
  | none => false

/-- The struct is made before its field is assigned to, so the literals are kept. -/
theorem reserved_kept_field :
    ∃ program t g checked bytes d env w value w',
      Accepted fieldSource {} program t g checked ∧ compileToBytes fieldSource {} = .ok bytes ∧
      generate program t = .ok d g ∧
      (d.toModule memoryName).instantiate? memoryName = some (env, World.store w) ∧
      Watched.call g.heapBase ⟨checked, g, env.exportsMemory, env.grantsPages⟩ 3 mainName [] w =
        .ok (value, w') ∧
      ∀ index results store, d.functionIndex? mainName = some index →
        env.Ends index [] 0 w.store (.ok (results, store)) → store.memory.pageCount < maxPages →
        (∀ address < defaultMemoryStart, store.memory.byte address = 0) ∧
          ∀ s ∈ d.segments, store.memory.Holds s := by
  have haccepts : accepts fieldSource {} := by decide +kernel
  obtain ⟨program, t, g, checked, h⟩ := accepts_iff.mp haccepts
  have hcompiles : (compileToBytes fieldSource {}).toBool := by decide +kernel
  obtain ⟨bytes, hbytes⟩ := Except.exists_of_toBool hcompiles
  obtain ⟨d, env, w, hgenerate, hinstantiate, hkept⟩ := reserved_kept h rfl hbytes
  have hends : (match ({} : CompileOptions).symbols.parse fieldSource with
      | (.ok program, t) => match SymbolTable.declare program t with
        | .ok _ g => match checkProgram program g, generate program t with
          | .ok checked _, .ok d _ => mainEnds checked g d 3
          | _, _ => false
        | .error .. => false
      | (.error _, _) => false) = true := by
    decide +kernel
  obtain ⟨g', hcheck⟩ := h.checked
  simp only [h.parsed, h.declared, hcheck, hgenerate, mainEnds, hinstantiate, Bool.and_eq_true,
    decide_eq_true_eq] at hends
  obtain ⟨hsignature, hends⟩ := hends
  obtain ⟨⟨value, w'⟩, hwatched⟩ := Except.exists_of_toBool hends
  refine ⟨program, t, g, checked, bytes, d, env, w, value, w', h, hbytes, hgenerate, hinstantiate,
    hwatched, ?_⟩
  intro index results store hindex hruns hpages
  exact hkept mainName _ index [] 3 value w' hsignature hindex .nil hwatched results store hruns
    hpages

end WasmCompiler
