import WasmCompiler.Proofs.Lowering.Order
import WasmCompiler.Proofs.Lowering.Outcomes

/-!
# Numbers of functions

Calls are lowered when only the names of the functions are known: their numbers are counted out
beforehand, and the functions follow one by one. `Numbered` says that both fit together: under the
number by which the code calls a declared name stands the function of that declaration, with its
types, and the allocator stands last. `generate_numbers` proves it of every program that was parsed.

`Generated.hasNumber` is where the two meet. The number of a name is its place among the names as
they are declared, the function stands at the place where its declaration was lowered, and no name
is declared twice. `CheckedTopLevel.callsAt` says which numbers are in the code.
-/

namespace WasmCompiler

open Wasm (Descriptor Function Instr)

/-- A function has the name of a declaration and the machine types of what is registered for it. -/
def Stmt.Heads (g : SymbolTable) : Stmt → Function → Prop
  | .function _ header _, f => f.name = header.name ∧
    ∃ signature, g.function? header.name = some signature ∧
      f.type = ⟨DataType.machineTypesAll signature.params, signature.result.machineTypes⟩
  | .struct _ decl, f => f.name = decl.name ∧
    ∃ fields, g.struct? decl.name = some fields ∧
      f.type = ⟨DataType.machineTypesAll (fields.map (·.2)), [.i32]⟩
  | _, _ => False

namespace Lowering

/-- A name has the number of the function of that name, which is one of the given functions. -/
structure HasNumber (d : Descriptor) (functions : List Function) (name : String) (k : Nat) :
    Prop where
  found : d.functionIndex? name = some k
  position : ∃ (i : Nat) (function : Function), functions[i]? = some function ∧
    function.name = name ∧ k = hostImports.length + i

/-- The functions of a descriptor have the numbers by which they are called. The given functions are
those of the declarations in `g`. -/
structure Numbered (g : SymbolTable) (program : Program) (functions : List Function)
    (d : Descriptor) : Prop where
  /-- The functions of the host have the numbers zero and one. -/
  imports : d.imports = hostImports
  last : d.functions = functions ++ [allocator]
  heads : List.Forall₂ (Stmt.Heads g) program.statements functions
  numbers : ∀ name ∈ declaredNames program, ∃ k, HasNumber d functions name k
  /-- No declaration takes the name of a function of the host. -/
  free : ∀ name ∈ declaredNames program, name ≠ printName ∧ name ≠ printStringName
  calls : List.Forall₂ (fun stmt function =>
    List.Forall₂ (CallSite.Calls (HasNumber d functions) (hostImports.length + functions.length))
      (stmt.callSitesTopLevel g) (Instr.callsAll function.body)) program.statements functions

variable {program checked : Program} {t g : SymbolTable} {functions : List Function}
  {d : Descriptor}

section Generated

variable (hd : Generated program t g checked functions d)
include hd

/-- The names are counted before checking, which does not change them. -/
theorem Generated.declaredNames_eq : declaredNames program = declaredNames checked :=
  declaredNames_sameHeader (hd.checks.imp fun _ _ hs => hs.sameHeader)

/-- What holds of every declaration and what it was checked and lowered to. -/
theorem Generated.forall₂ {R : Stmt → Function → Prop}
    (h : ∀ stmt stmt' function, stmt ∈ program.statements → CheckedTopLevel g stmt stmt' →
      LoweredTo checked g stmt' function → R stmt function) :
    List.Forall₂ R program.statements functions := by
  obtain ⟨-, hchecks, hlowers, -⟩ := hd
  -- the induction is on the statements, whatever the programs that they are of
  generalize program.statements = stmts at hchecks h ⊢
  generalize checked.statements = stmts' at hchecks hlowers
  induction hchecks generalizing functions with
  | nil =>
    cases hlowers
    exact .nil
  | cons hstmt _ ih =>
    cases hlowers with
    | cons hfirst hothers =>
      refine .cons (h _ _ _ List.mem_cons_self hstmt hfirst) (ih ?_ hothers)
      exact fun stmt stmt' function hmem => h stmt stmt' function (List.mem_cons_of_mem _ hmem)

/-- The function of each declaration has its name and its registered types. -/
theorem Generated.heads : List.Forall₂ (Stmt.Heads g) program.statements functions := by
  refine hd.forall₂ fun stmt stmt' function hmem hcheck hlowered => ?_
  cases hcheck with
  | struct =>
    obtain ⟨fields, hfields, rfl⟩ := hlowered.constructor
    exact ⟨rfl, fields, hfields, rfl⟩
  | @function location header source body signature params last hchecked =>
    obtain ⟨u, u', hu, hlower⟩ := hlowered.lowerFunction
    have hlength := registered_of_declare hd.declares _ _ _ hmem _ hchecked.found
    obtain ⟨code, s, -, rfl⟩ := hchecked.lowerFunction_eq_ok hlength hu hlower
    exact ⟨rfl, signature, hchecked.found, rfl⟩

variable (ht : t.Fresh)
include ht

/-- The number that was counted out for a name is the number of its function. -/
theorem Generated.hasNumber {name : String} {k : Nat}
    (h : (functionIndices checked).lookup name = some k) : HasNumber d functions name k := by
  have hnames : declaredNames checked = functions.map (·.name) := names_of_lowered hd.lowers
  have hmem : name ∈ declaredNames checked := by
    by_contra hnot
    rw [functionIndices, lookup_zipIdx_of_not_mem hnot] at h
    cases h
  -- the number of a name is its position among the declared ones
  have hposition := List.getElem?_idxOf hmem
  rw [functionIndices, lookup_zipIdx_of_mem hmem] at h
  obtain rfl := Option.some.inj h
  generalize (declaredNames checked).idxOf name = i at hposition ⊢
  rw [hnames, List.getElem?_map, Option.map_eq_some_iff] at hposition
  obtain ⟨function, hfunction, rfl⟩ := hposition
  have hnodup : (functions.map (·.name)).Nodup := hnames ▸ hd.nodup_declaredNames ht
  refine ⟨?_, i, function, hfunction, rfl, rfl⟩
  rw [hd.descriptor]
  exact functionIndex?_eq_some rfl hnodup hfunction

/-- Imports come first, then the functions, and the allocator is the last of them. -/
theorem Generated.numbered (hknown : ∀ stmt ∈ program.statements, Knows t.strings stmt.texts) :
    Numbered g program functions d where
  imports := by rw [hd.descriptor]
  last := by rw [hd.descriptor]
  heads := hd.heads
  numbers name hname := by
    rw [hd.declaredNames_eq] at hname
    exact ⟨_, hd.hasNumber ht (lookup_zipIdx_of_mem hname _)⟩
  free name hname := by
    have hdeclared := ht.declared_of_declare hd.declares
    have hfree := hdeclared.registry.free name (hdeclared.names.mem_iff.mpr hname)
    constructor
    · rintro rfl
      exact hfree (by decide)
    · rintro rfl
      exact hfree (by decide)
  calls := by
    -- declaring adds no string literal
    have hstrings : g.strings = t.strings := by rw [(ht.declared_of_declare hd.declares).rest]
    refine hd.forall₂ fun stmt stmt' function hmem hcheck hlowered => ?_
    have hcalls := hcheck.callsAt (registered_of_declare hd.declares) hmem
      (hstrings ▸ hknown stmt hmem) hlowered
    rw [CallsAt, ← length_of_lowered hd.lowers] at hcalls
    exact hcalls.imp fun site k hsite => hsite.mono fun name k hk => hd.hasNumber ht hk

end Generated

/-- The functions of a parsed program have the numbers by which its code calls them. That they have
not is an error that never arises. -/
theorem generate_numbers {options : CompileOptions} {source : String}
    (h : options.symbols.parse source = (.ok program, t)) :
    (∀ d t', generate program t = .ok d t' → ∃ g functions,
      SymbolTable.declare program t = .ok () g ∧ Numbered g program functions d) ∧
      ∀ e t' place, generate program t = .error e t' → e ≠ .invariant .allocatorPosition place := by
  have ht : t.Fresh := SymbolTable.fresh_of_parse h
  constructor
  · intro d t' hgenerate
    obtain ⟨g, checked, functions, hd⟩ := generated_of_generate hgenerate
    exact ⟨g, functions, hd.declares, hd.numbered ht (knows_of_parse h)⟩
  · rintro e t' place hgenerate rfl
    cases isRuledOut_of_generate ht (knows_of_parse h) hgenerate

/-- A constructor, an array literal, functions that call each other, and printing of both kinds. -/
def numberSource : String :=
  "func main() \x7b print f(P(1)); printString('a'); print 'b'; \x7d struct P \x7b x: i32 \x7d " ++
    "func f(p: P) -> i32 \x7b return [g(p.x), 2][0]; \x7d func g(n: i32) -> i32 \x7b return n; \x7d"

/-- Four functions, and every call among them has the number that was counted out. -/
theorem generate_numbers_calls : ∃ program t g functions d t',
    (CompileOptions.symbols {}).parse numberSource = (.ok program, t) ∧
      generate program t = .ok d t' ∧ functions.length = 4 ∧ Numbered g program functions d := by
  let t := ((CompileOptions.symbols {}).parse numberSource).2
  have hruns : (((CompileOptions.symbols {}).parse numberSource).1.toOption.any fun program =>
      ((generate program).run' t).any fun d => decide (d.functions.length = 5)) = true := by
    decide +kernel
  obtain ⟨program, hparse, hruns⟩ := Except.exists_of_any hruns
  obtain ⟨d, t', hgenerate, hlength⟩ := EStateM.exists_of_any hruns
  have hparse : (CompileOptions.symbols {}).parse numberSource = (.ok program, t) :=
    Prod.ext hparse rfl
  obtain ⟨g, functions, -, hnumbered⟩ := (generate_numbers hparse).1 d t' hgenerate
  have hfour : functions.length = 4 := by
    have hlength := of_decide_eq_true hlength
    rw [hnumbered.last, List.length_append] at hlength
    exact Nat.succ.inj hlength
  exact ⟨program, t, g, functions, d, t', hparse, hgenerate, hfour, hnumbered⟩

end Lowering

end WasmCompiler
