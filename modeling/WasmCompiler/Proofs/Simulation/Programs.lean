import Mathlib.Algebra.Order.BigOperators.Group.List
import Mathlib.Algebra.Order.Group.Nat
import WasmCompiler.Compile
import WasmCompiler.Proofs.Simulation.Functions
import WasmCompiler.Wasm.Machine.Instance

/-!
# Compiled programs do what their source means

`generate_implements`: whatever a function of an accepted program gives for some arguments, in any
world, its compiled form gives. Results, the memory and what was printed are the same, and so are
traps. There is one difference: a machine has only so much room for calls. With enough of it the
machine always gets to the end; with less it does the same or runs out of room.

Most of the way there lies in other modules:

* `ExprCode.follows` and `StmtCode.follows` go through the code of a function, relying on what it
  calls;
* `callFollows` makes good for this by induction on the depth of calls;
* `run_of_callFollows` turns a machine that follows an evaluation into a run of so many steps, and
  `Machine.run_withRoom` says what becomes of it with less room;
* `loaded_toModule` finds the functions of the descriptor among those of the module.
-/

namespace WasmCompiler

open Lowering
open Source (Datum Interpreter Setting Stop World)
open Wasm (Callee Descriptor Environment Function Machine Place Store Trap Value)

/-- What a run should give for what an evaluation gives. An evaluation that has not ended says
nothing about it. -/
def Source.expected : Except Stop (Datum × World) → Option (Except Trap (List Value × Store))
  | .ok (d, w) => some (.ok (d.values, w.store))
  | .error (.trap cause) => some (.error cause)
  | .error .wrong | .error .endless => none

/-! ### Runs

From a machine that follows an evaluation to the run that the host starts. -/

/-- A call by the host gives what the evaluation of the call gives, if there is room. -/
theorem run_of_callFollows {env : Environment} {x : Interpreter} {need index : Nat}
    {callee : String} {signature : Signature}
    (h : CallFollows env x need callee signature index) (hroom : need ≤ env.stackRoom)
    {args : List Datum} (hargs : List.Forall₂ HasType args signature.params) (w : World) :
    x.call callee args w ≠ .error .wrong ∧
      ∀ result, Source.expected (x.call callee args w) = some result →
        ∃ steps, (Machine.calling index (args.flatMap (·.values)) signature.result.width
          w.store).run env steps = some result := by
  let p : Place := ⟨[], signature.result.width, 0, []⟩
  have hfollows := h p [] [] #[] w args (by simpa [p] using hroom) hargs
  rw [List.append_nil] at hfollows
  generalize x.call callee args w = outcome at hfollows
  -- the machine stands at the end of the outermost frame, so one more step ends the run
  match outcome, hfollows with
  | .ok (d, w'), ⟨_, hreaches, rfl, _, htyped⟩ =>
    refine ⟨by simp, fun result hresult => ?_⟩
    obtain rfl := Option.some.inj hresult
    refine Machine.run_of_reaches hreaches ⟨1, ?_⟩
    have htake : (d.values.reverse ++ []).take signature.result.width = d.values.reverse := by
      rw [List.append_nil, ← htyped.length, ← List.length_reverse, List.take_length]
    show some (Except.ok (((d.values.reverse ++ []).take signature.result.width).reverse, _)) = _
    rw [htake, List.reverse_reverse]
  | .error (.trap cause), ⟨m, hreaches, hstep⟩ =>
    refine ⟨by simp, fun result hresult => ?_⟩
    obtain rfl := Option.some.inj hresult
    refine Machine.run_of_reaches hreaches ⟨1, ?_⟩
    rw [Machine.run, hstep]
  | .error .endless, _ => exact ⟨by simp, fun _ hresult => by cases hresult⟩

/-! ### Loading

The functions of a module, as the machine finds them. -/

/-- A function as it is called. -/
def calleeOf (d : Descriptor) (f : Function) : Callee :=
  .defined f.type ⟨f.locals, f.body⟩
    (Wasm.Room.ofFunction d.allTypes.toArray f.type ⟨f.locals, f.body⟩)

/-- Imports first, then the functions in order. -/
theorem callees?_toModule {d : Descriptor} (himports : d.imports = hostImports) :
    (d.toModule memoryName).callees? d.allTypes =
      some ([.host .print, .host .printString] ++ d.functions.map (calleeOf d)) := by
  have himported : (((d.toModule memoryName).imports.zip d.allTypes).mapM fun entry =>
      Wasm.hostFunction? entry.1 entry.2) = some [.host .print, .host .printString] := by
    rw [Descriptor.toModule, Descriptor.allTypes, himports]
    rfl
  have hdefined : (d.allTypes.drop (d.toModule memoryName).imports.length).zip
      (d.toModule memoryName).codes =
        d.functions.map fun f => (f.type, Wasm.Code.mk f.locals f.body) := by
    have hcount : (d.toModule memoryName).imports.length = (d.imports.map (·.type)).length := by
      simp only [Descriptor.toModule, List.length_map]
    rw [hcount, Descriptor.allTypes, List.drop_left]
    exact List.zip_map'
  simp only [Wasm.Module.callees?, himported, hdefined, List.map_map]
  rfl

/-- The functions of a module can be called as they are described. -/
theorem loaded_toModule {d : Descriptor} {callees : List Callee}
    (himports : d.imports = hostImports)
    (hcallees : (d.toModule memoryName).callees? d.allTypes = some callees) :
    ∃ most, ∀ (s : Setting) (stackRoom : Nat),
      Loaded ⟨callees.toArray, s.exportsMemory, s.grantsPages, stackRoom⟩ s d.functions most := by
  rw [callees?_toModule himports, Option.some.injEq] at hcallees
  subst hcallees
  -- the rooms of all functions together are enough for each of them
  let room (f : Function) : Nat :=
    Wasm.Room.ofFunction d.allTypes.toArray f.type ⟨f.locals, f.body⟩
  refine ⟨(d.functions.map room).sum, fun s stackRoom => ⟨rfl, rfl, ?_, rfl, rfl⟩⟩
  intro k f hf
  have hmem : room f ∈ d.functions.map room :=
    List.mem_map_of_mem (List.mem_of_getElem? hf)
  refine ⟨room f, List.le_sum_of_mem hmem, ?_⟩
  rw [List.getElem?_toArray, List.getElem?_append_right (Nat.le_add_right 2 k)]
  show (d.functions.map (calleeOf d))[2 + k - 2]? = _
  rw [Nat.add_sub_cancel_left, List.getElem?_map, hf]
  rfl

/-! ### Programs

All functions of an accepted program. -/

/-- The number of a function is found by its name. -/
theorem Compiled.functionIndex?_eq {g : SymbolTable} {program : Program} {d : Descriptor}
    {functions : List Function} (h : Compiled g program functions)
    (himports : d.imports = hostImports) (hfunctions : d.functions = functions ++ [allocator])
    {k : Nat} {function : Function} (hfunction : functions[k]? = some function) :
    d.functionIndex? function.name = some (hostImports.length + k) := by
  have hnodup : (functions.map (·.name)).Nodup := by
    rw [← declaredNames_eq h.codes]
    exact h.names.nodup_iff.mp h.registry.nodup
  rw [functionIndex?_eq_some hfunctions hnodup hfunction, himports]

/-- A function of the program is reached by a call of its name. -/
theorem Compiled.resolves_function {g : SymbolTable} {program : Program}
    {functions : List Function} (h : Compiled g program functions) {name : String}
    {signature : Signature} (hsignature : g.function? name = some signature) :
    ∃ k function, functions[k]? = some function ∧ function.name = name ∧
      Resolves g program functions name signature (hostImports.length + k) := by
  have hname : name ∈ g.names := by
    refine List.mem_append_left _ (SymbolTable.lookup_isSome_iff.mp ?_)
    rw [← SymbolTable.function?, hsignature]
    rfl
  obtain ⟨hprint, hstring⟩ := h.ne_host hname
  have hcallable : g.callable? name = some signature := by
    rw [SymbolTable.callable?, if_neg hprint, if_neg hstring, hsignature]
  obtain ⟨index, hindex⟩ := complete_of_names h.names name signature hcallable
  have hresolves := h.resolves rfl hcallable hindex
  -- the name resolves to a declared function, as it has the signature of one
  cases hresolves with
  | print => exact absurd rfl hprint
  | printString => exact absurd rfl hstring
  | struct hfields _ =>
    rw [h.function?_eq_none hfields] at hsignature
    cases hsignature
  | function hstmt hsignature hlength hfunction hcode =>
    refine ⟨_, _, hfunction, ?_, .function hstmt hsignature hlength hfunction hcode⟩
    cases hcode
    rfl

/-- The functions of a compiled program do what they mean in the source. In every world and for
all arguments that fit, a call makes sense; and where its evaluation ends, so does a run of the
function, with the same values, world or trap. Only if there is too little room, a run may end by
running out of it. -/
def Implements (d : Descriptor) (program : Program) (g : SymbolTable) : Prop :=
  ∃ callees, (d.toModule memoryName).callees? d.allTypes = some callees ∧
    ∀ name signature, g.function? name = some signature →
    ∃ index, d.functionIndex? name = some index ∧
    ∀ (exportsMemory : Bool) (grantsPages : Nat → Bool) (args : List Datum) (w : World)
      (fuel : Nat), List.Forall₂ HasType args signature.params →
    let outcome := Source.call ⟨program, g, exportsMemory, grantsPages⟩ fuel name args w
    outcome ≠ .error .wrong ∧ ∀ result, Source.expected outcome = some result →
    ∃ enough, ∀ stackRoom, ∃ steps,
      let run := (Machine.calling index (args.flatMap (·.values)) signature.result.width
        w.store).run ⟨callees.toArray, exportsMemory, grantsPages, stackRoom⟩ steps
      run = some result ∨ stackRoom < enough ∧ run = some (.error .stackExhausted)

/-- **Lowering preserves meaning.** An accepted program is lowered, and each of its functions does
on the machine what it means in the source, in every world and for all arguments that fit. -/
theorem generate_implements {source : String} {options : CompileOptions}
    {program checked : Program} {t g : SymbolTable}
    (h : Accepted source options program t g checked) :
    ∃ d, generate program t = .ok d g ∧ Implements d checked g := by
  obtain ⟨functions, hcompiled, hgenerate⟩ := generate_accepted h
  have hcallees := callees?_toModule (d := assembled g functions) rfl
  obtain ⟨most, hloaded⟩ := loaded_toModule rfl hcallees
  refine ⟨_, hgenerate, _, hcallees, fun name signature hsignature => ?_⟩
  obtain ⟨k, function, hfunction, rfl, hresolves⟩ := hcompiled.resolves_function hsignature
  refine ⟨_, hcompiled.functionIndex?_eq rfl rfl hfunction, ?_⟩
  intro exportsMemory grantsPages args w fuel hargs
  let s : Setting := ⟨checked, g, exportsMemory, grantsPages⟩
  -- every level of calls takes no more room than the largest frame
  let enough := (fuel + 1) * most
  have hcall (stackRoom : Nat) :=
    callFollows hcompiled (hloaded s stackRoom) rfl rfl fuel hresolves
  obtain ⟨hwrong, hruns⟩ := run_of_callFollows (hcall enough) (Nat.le_refl _) hargs w
  refine ⟨hwrong, fun result hresult => ⟨enough, fun stackRoom => ?_⟩⟩
  -- with less room the run is the same until the stack is exhausted
  rcases Nat.lt_or_ge stackRoom enough with hless | hroom
  · obtain ⟨steps, hrun⟩ := hruns result hresult
    rcases Machine.run_withRoom (Nat.le_of_lt hless) hrun with hrun' | hrun'
    · exact ⟨steps, .inl hrun'⟩
    · exact ⟨steps, .inr ⟨hless, hrun'⟩⟩
  · obtain ⟨steps, hrun⟩ := (run_of_callFollows (hcall stackRoom) hroom hargs w).2 result hresult
    exact ⟨steps, .inl hrun⟩

/-- A text with a loop, a function of the host, an array and a quotient. -/
def quotientSource : String :=
  "func f(a: i32, b: i32) -> i32 \x7b while b < 0 \x7b b = b + a; \x7d " ++
    "print(a); return [a / b][0]; \x7d"

/-- The sample is accepted, so its function does what it means. -/
theorem generate_implements_quotient :
    ∃ program t g checked d, Accepted quotientSource {} program t g checked ∧
      (g.function? "f").isSome ∧ generate program t = .ok d g ∧ Implements d checked g := by
  have haccepts : accepts quotientSource {} := by decide +kernel
  obtain ⟨program, t, g, checked, h⟩ := accepts_iff.mp haccepts
  obtain ⟨d, hgenerate, himplements⟩ := generate_implements h
  have hfunction : (match ({} : CompileOptions).symbols.parse quotientSource with
      | (.ok program, t) => match SymbolTable.declare program t with
        | .ok _ g => (g.function? "f").isSome
        | .error .. => false
      | (.error _, _) => false) = true := by
    decide +kernel
  simp only [h.parsed, h.declared] at hfunction
  exact ⟨program, t, g, checked, d, h, hfunction, hgenerate, himplements⟩

end WasmCompiler
