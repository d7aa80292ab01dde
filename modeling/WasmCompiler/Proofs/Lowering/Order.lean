import WasmCompiler.Proofs.Lowering.Linking
import Mathlib.Data.List.Perm.Basic

/-!
# The order of declarations

Functions may be declared in any order. Reordering the declarations of a program, structs among
themselves apart, changes neither whether it is accepted nor the types that its bindings get, and
the functions it is lowered to differ in the numbers that they call each other by only
(`generate_reorders`).

The registered functions come in another order then, but the tables look alike. So every
declaration is lowered to the same relocatable function, and linking gives it the other numbers.

* `declare_of_reorders` registers the declarations in another order, and `Checks.reorder` checks
  them;
* `renumber` is the change of numbers, and `renames_programLinking` says that it is all that linking
  the two programs differs by;
* `Generated.reorder` puts the functions of the two programs side by side.
-/

namespace WasmCompiler

open Wasm (Descriptor Function Instr Linking Relocatable RelocatableFunction)
open Wasm.Relocatable (linkAll)
open SymbolTable (Alike)

/-! ### Renaming calls

Code with other numbers in its calls and nothing else changed. -/

namespace Wasm

namespace Instr

mutual

/-- The instruction with other numbers for the functions that it calls. -/
def renameCalls (ρ : Nat → Nat) : Instr → Instr
  | .call function => .call (ρ function)
  | .block result body => .block result (renameCallsAll ρ body)
  | .loop result body => .loop result (renameCallsAll ρ body)
  | .branch result body none => .branch result (renameCallsAll ρ body) none
  | .branch result body (some alternate) =>
    .branch result (renameCallsAll ρ body) (some (renameCallsAll ρ alternate))
  | other => other

/-- Code with other numbers for the functions that it calls. -/
def renameCallsAll (ρ : Nat → Nat) : List Instr → List Instr
  | [] => []
  | i :: is => renameCalls ρ i :: renameCallsAll ρ is

end

/-- An instruction that calls nothing has no number to change. -/
theorem renameCalls_of_isPlain {ρ : Nat → Nat} {i : Instr} (h : i.isPlain = true) :
    i.renameCalls ρ = i := by
  cases i with
  | block | loop | branch | call => cases h
  | _ => simp [renameCalls]

end Instr

/-- The function with other numbers for those that it calls. -/
def Function.renameCalls (ρ : Nat → Nat) (f : Function) : Function :=
  { f with body := Instr.renameCallsAll ρ f.body }

namespace Relocatable

/-- Linkings that differ in the numbers of functions. -/
structure Renames (ρ : Nat → Nat) (l l' : Linking) : Prop where
  callee : ∀ name, l'.callee name = ρ (l.callee name)
  allocator : l'.allocator = ρ l.allocator
  address : l'.address = l.address

variable {ρ : Nat → Nat} {l l' : Linking}

mutual

/-- To rename calls after linking is to link with the other numbers. -/
theorem renameCalls_link (h : Renames ρ l l') : (i : Relocatable) →
    (link l i).renameCalls ρ = link l' i
  | .plain instr hplain => by
    simp only [link, Instr.renameCalls_of_isPlain hplain]
  | .address text => by
    simp only [link, Instr.renameCalls, h.address]
  | .call callee => by
    simp only [link, Instr.renameCalls, h.callee]
  | .allocate => by
    simp only [link, Instr.renameCalls, h.allocator]
  | .block result body | .loop result body | .branch result body none => by
    simp only [link, Instr.renameCalls, renameCallsAll_linkAll h body]
  | .branch result body (some alternate) => by
    simp only [link, Instr.renameCalls, renameCallsAll_linkAll h body,
      renameCallsAll_linkAll h alternate]

theorem renameCallsAll_linkAll (h : Renames ρ l l') : (code : List Relocatable) →
    Instr.renameCallsAll ρ (linkAll l code) = linkAll l' code
  | [] => by
    simp only [linkAll, Instr.renameCallsAll]
  | i :: is => by
    simp only [linkAll, Instr.renameCallsAll, renameCalls_link h i, renameCallsAll_linkAll h is]

end

end Relocatable

/-- To rename the calls of a linked function is to link it with the other numbers. -/
theorem RelocatableFunction.renameCalls_link {ρ : Nat → Nat} {l l' : Linking}
    (h : Relocatable.Renames ρ l l') (r : RelocatableFunction) :
    (r.link l).renameCalls ρ = r.link l' := by
  simp only [RelocatableFunction.link, Function.renameCalls, Relocatable.renameCallsAll_linkAll h]

/-- Descriptors with the same functions in another order. The function with a number in the first
has the number that `ρ` gives in the second, and is the same there, up to the numbers it calls. -/
structure Descriptor.RenumbersTo (ρ : Nat → Nat) (d d' : Descriptor) : Prop where
  imports : d'.imports = d.imports
  segments : d'.segments = d.segments
  heapBase : d'.heapBase = d.heapBase
  memoryPages : d'.memoryPages = d.memoryPages
  exportsMemory : d'.exportsMemory = d.exportsMemory
  host : ∀ k < d.imports.length, ρ k = k
  numbers : ∀ (i : Nat) f, d.functions[i]? = some f → ∃ j : Nat,
    ρ (d.imports.length + i) = d.imports.length + j ∧ d'.functions[j]? = some (f.renameCalls ρ)
  functions : (d.functions.map (·.renameCalls ρ)).Perm d'.functions

end Wasm

/-! ### Reordered programs

The structs keep their order, since one may have a field of another that stands before it. -/

/-- Whether a statement declares a struct. -/
def Stmt.isStruct : Stmt → Bool
  | .struct .. => true
  | _ => false

/-- Programs with the same declarations, and the structs in the same order. -/
structure Program.Reorders (p q : Program) : Prop where
  perm : p.statements.Perm q.statements
  structs : p.statements.filter Stmt.isStruct = q.statements.filter Stmt.isStruct

theorem Program.Reorders.symm {p q : Program} (h : p.Reorders q) : q.Reorders p :=
  ⟨h.perm.symm, h.structs.symm⟩

namespace SymbolTable

variable {t g : SymbolTable}

/-! ### Registering in another order

The tables that registering leaves look alike. -/

/-- Only the structs are looked at when structs are declared, so their own order is all that
matters. -/
theorem declareStructs_eq_filter (stmts : List Stmt) :
    stmts.forM declareIfStruct = (stmts.filter Stmt.isStruct).forM declareIfStruct := by
  induction stmts with
  | nil => rfl
  | cons stmt stmts ih =>
    have hcons : (stmt :: stmts).forM declareIfStruct =
        declareIfStruct stmt >>= fun _ => stmts.forM declareIfStruct := rfl
    rw [hcons, ih]
    cases stmt <;> rfl

/-- Names that are declared once are found wherever they stand. -/
theorem lookup_perm {β : Type} {l l' : List (String × β)} (h : l.Perm l')
    (hnodup : (l.map (·.1)).Nodup) (name : String) : l'.lookup name = l.lookup name := by
  cases hfound : l.lookup name with
  | some b =>
    exact lookup_of_mem_of_nodup ((h.map _).nodup_iff.mp hnodup)
      (h.mem_iff.mp (mem_of_lookup hfound))
  | none =>
    have hmem : name ∉ l.map (·.1) := by
      rw [← lookup_isSome_iff, hfound]
      exact Bool.false_ne_true
    rw [← Option.not_isSome_iff_eq_none, lookup_isSome_iff]
    exact fun hmem' => hmem ((h.map _).mem_iff.mpr hmem')

/-- If every step succeeds then so do all of them together. -/
theorem mapM_eq_ok_of_forall₂ {α β ε : Type} {f : α → Except ε β} {xs : List α} {ys : List β}
    (h : List.Forall₂ (fun x y => f x = .ok y) xs ys) : xs.mapM f = .ok ys := by
  induction h with
  | nil => rfl
  | cons hfirst _ ih =>
    rw [List.mapM_cons, hfirst, ih]
    rfl

/-- Functions can be registered in any order, since none looks at the others. -/
theorem declareFunctions_of_perm {stmts stmts' : List Stmt} (hperm : stmts.Perm stmts')
    (h : stmts.forM declareIfFunction t = .ok () g) :
    ∃ g', stmts'.forM declareIfFunction t = .ok () g' ∧ Alike g g' := by
  obtain ⟨entries, hentries, hnodup, hfree, rfl⟩ := declareFunctions_iff.mp h
  have hheaders : (headers stmts').Perm (headers stmts) := (hperm.filterMap _).symm
  obtain ⟨entries', hpairs, hperm'⟩ := List.perm_comp_forall₂ hheaders (mapM_eq_ok hentries)
  refine ⟨t.withFunctions entries'.reverse, declareFunctions_iff.mpr
    ⟨entries', mapM_eq_ok_of_forall₂ hpairs, ?_, ?_, rfl⟩, { Alike.refl t with function? := ?_ }⟩
  · exact (hperm'.map _).nodup_iff.mpr hnodup
  · exact fun e he => hfree e (hperm'.mem_iff.mp he)
  · -- the entries have different names, so their order does not matter
    intro name
    have hreverse : entries.reverse.Perm entries'.reverse :=
      (List.reverse_perm _).trans (hperm'.symm.trans (List.reverse_perm _).symm)
    have hnodup' : (entries.reverse.map (·.1)).Nodup :=
      ((List.reverse_perm entries).map _).nodup_iff.mpr hnodup
    show (entries'.reverse ++ t.functions).lookup name =
      (entries.reverse ++ t.functions).lookup name
    rw [List.lookup_append, List.lookup_append, lookup_perm hreverse hnodup']

/-- Structs first and then functions, whatever the order of the text. -/
theorem declare_of_reorders {p q : Program} (h : p.Reorders q) (hdeclare : declare p t = .ok () g) :
    ∃ g', declare q t = .ok () g' ∧ Alike g g' := by
  obtain ⟨_, t₁, hstructs, hfunctions⟩ := EStateM.bind_eq_ok_iff.mp hdeclare
  obtain ⟨g', hfunctions', halike⟩ := declareFunctions_of_perm h.perm hfunctions
  refine ⟨g', EStateM.bind_eq_ok_iff.mpr ⟨(), t₁, ?_, hfunctions'⟩, halike⟩
  rwa [declareStructs_eq_filter, ← h.structs, ← declareStructs_eq_filter]

end SymbolTable

namespace Lowering

variable {g g' u : SymbolTable}

/-! ### Numbers

The numbers that names are given by their order. -/

section Numbers

variable {names names' : List String}

/-- The number in the second list of the function with a number in the first. The functions of the
host and the allocator keep their numbers. -/
def renumber (names names' : List String) (k : Nat) : Nat :=
  if k < hostImports.length then k
  else
    match names[k - hostImports.length]? with
    | some name => hostImports.length + names'.idxOf name
    | none => k

/-- The functions of the host keep their numbers. -/
theorem renumber_of_lt {k : Nat} (h : k < hostImports.length) : renumber names names' k = k :=
  if_pos h

/-- The number of a name is the place of the name in the other list. -/
theorem renumber_of_getElem? {i : Nat} {name : String} (h : names[i]? = some name) :
    renumber names names' (hostImports.length + i) = hostImports.length + names'.idxOf name := by
  rw [renumber, if_neg (by omega), Nat.add_sub_cancel_left, h]

/-- The allocator comes after as many functions as before. -/
theorem renumber_length (names names' : List String) :
    renumber names names' (hostImports.length + names.length) =
      hostImports.length + names.length := by
  rw [renumber, if_neg (by omega), Nat.add_sub_cancel_left, List.getElem?_eq_none (Nat.le_refl _)]

/-- The number of a name is counted from the first one on. -/
theorem lookup_zipIdx_of_mem {name : String} (h : name ∈ names) (n : Nat) :
    (names.zipIdx n).lookup name = some (n + names.idxOf name) := by
  induction names generalizing n with
  | nil => cases h
  | cons first names ih =>
    rw [List.zipIdx_cons, List.lookup_cons, List.idxOf_cons]
    by_cases hname : name = first
    · simp [hname]
    · have hmem : name ∈ names := (List.mem_cons.mp h).resolve_left hname
      have hne : (name == first) = false := beq_false_of_ne hname
      have hne' : (first == name) = false := beq_false_of_ne (Ne.symm hname)
      simp only [hne, hne', ih hmem, cond_false]
      exact congrArg some (by omega)

theorem lookup_zipIdx_of_not_mem {name : String} (h : name ∉ names) (n : Nat) :
    (names.zipIdx n).lookup name = none := by
  rw [← Option.not_isSome_iff_eq_none, SymbolTable.lookup_isSome_iff, List.zipIdx_map_fst]
  exact h

/-- The numbers of a reordered program are the old ones, renumbered; no address changes. -/
theorem renames_programLinking {p q : Program} (hperm : (declaredNames p).Perm (declaredNames q))
    (strings : StringPool) :
    Relocatable.Renames (renumber (declaredNames p) (declaredNames q))
      (programLinking p strings) (programLinking q strings) where
  callee name := by
    simp only [programLinking, linking, functionIndices]
    split
    · rw [renumber_of_lt (by decide)]
    · split
      · rw [renumber_of_lt (by decide)]
      · by_cases hmem : name ∈ declaredNames p
        · rw [lookup_zipIdx_of_mem hmem, lookup_zipIdx_of_mem (hperm.mem_iff.mp hmem)]
          exact (renumber_of_getElem? (List.getElem?_idxOf hmem)).symm
        · -- a name that is declared nowhere is given the number zero in both
          rw [lookup_zipIdx_of_not_mem hmem,
            lookup_zipIdx_of_not_mem fun h => hmem (hperm.mem_iff.mpr h)]
          rw [Option.getD_none, renumber_of_lt (by decide)]
  allocator := by
    show allocatorIndex q = renumber _ _ (allocatorIndex p)
    rw [allocatorIndex, allocatorIndex, renumber_length, hperm.length_eq]
  address := rfl

end Numbers

end Lowering

open Lowering

/-- The program is accepted in a table, and `checked` is its tree with types. -/
def Checks (program : Program) (t : SymbolTable) (checked : Program) : Prop :=
  ∃ g g', SymbolTable.declare program t = .ok () g ∧ checkProgram program g = .ok checked g'

/-- A program is accepted if it can be declared and each declaration can be checked in the table of
all. -/
theorem checks_iff {program checked : Program} {t : SymbolTable} :
    Checks program t checked ↔ ∃ g, SymbolTable.declare program t = .ok () g ∧
      List.Forall₂ (CheckedTopLevel g) program.statements checked.statements := by
  constructor
  · rintro ⟨g, g', hdeclare, hcheck⟩
    obtain ⟨stmts, u, hstmts, hpure⟩ := EStateM.bind_eq_ok_iff.mp hcheck
    obtain ⟨rfl, -⟩ := EStateM.pure_eq_ok_iff.mp hpure
    exact ⟨g, hdeclare, (checkTopLevels_eq_ok hstmts (show SameOutside g g from rfl)).1⟩
  · rintro ⟨g, hdeclare, hchecked⟩
    obtain ⟨u, hstmts⟩ := mapM_checkTopLevel_eq hchecked (show SameOutside g g from rfl)
    refine ⟨g, u, hdeclare, ?_⟩
    rw [checkProgram, EStateM.bind_of_ok hstmts]
    rfl

section Reordering

variable {p q : Program} {t : SymbolTable}

/-- Each declaration is checked in a table that looks alike, with the same outcome. -/
theorem Checks.reorder {c : Program} (hc : Checks p t c) (h : p.Reorders q) :
    ∃ c', Checks q t c' := by
  obtain ⟨g, hdeclare, hchecked⟩ := checks_iff.mp hc
  obtain ⟨g', hdeclare', halike⟩ := SymbolTable.declare_of_reorders h hdeclare
  obtain ⟨stmts', hpairs, -⟩ := List.perm_comp_forall₂ h.perm.symm hchecked
  exact ⟨⟨stmts'⟩, checks_iff.mpr ⟨g', hdeclare', hpairs.imp fun _ _ hs => hs.transfer halike⟩⟩

/-- A declaration gets the same types wherever it stands. -/
theorem Checks.typed {c c' : Program} (hc : Checks p t c) (hc' : Checks q t c')
    (h : p.Reorders q) : ∃ g, c.statements = p.statements.map (Lowering.typed g) ∧
      c'.statements = q.statements.map (Lowering.typed g) := by
  obtain ⟨g, hdeclare, hchecked⟩ := checks_iff.mp hc
  obtain ⟨g₁, hdeclare₁, halike⟩ := SymbolTable.declare_of_reorders h hdeclare
  obtain ⟨g', hdeclare', hchecked'⟩ := checks_iff.mp hc'
  obtain ⟨-, rfl⟩ := EStateM.Result.ok.inj (hdeclare₁.symm.trans hdeclare')
  exact ⟨g, eq_map_typed hchecked,
    eq_map_typed (hchecked'.imp fun _ _ hs => hs.transfer halike.symm)⟩

end Reordering

namespace Lowering

section Generating

variable {p q c c' : Program} {t g g' : SymbolTable} {functions functions' : List Function}
  {d d' : Descriptor}

theorem CheckedTopLevel.sameHeader {stmt stmt' : Stmt} (h : CheckedTopLevel g stmt stmt') :
    SameHeader stmt stmt' := by
  cases h with
  | struct => exact .struct
  | function => exact .function

/-- In a fresh table no name can be declared twice. -/
theorem Generated.nodup_declaredNames (hd : Generated p t g c functions d) (ht : t.Fresh) :
    (declaredNames c).Nodup := by
  have hsame : declaredNames p = declaredNames c :=
    declaredNames_sameHeader (hd.checks.imp fun _ _ hs => hs.sameHeader)
  rw [← hsame]
  have hdeclared := ht.declared_of_declare hd.declares
  exact hdeclared.names.nodup_iff.mp hdeclared.registry.nodup

theorem renameCalls_allocator (ρ : Nat → Nat) : allocator.renameCalls ρ = allocator := by
  simp [allocator, Function.renameCalls, Instr.renameCalls, Instr.renameCallsAll]

section Positions

variable {ρ : Nat → Nat} (hρ : ρ = renumber (functions.map (·.name)) (functions'.map (·.name)))
  (hnodup : (functions'.map (·.name)).Nodup)
  (hfunctions : (functions.map (·.renameCalls ρ)).Perm functions')
include hρ hnodup hfunctions

/-- A function of the program is found under its new number. -/
theorem getElem?_renumber {i : Nat} {f : Function} (hf : functions[i]? = some f) : ∃ j : Nat,
    ρ (hostImports.length + i) = hostImports.length + j ∧
      functions'[j]? = some (f.renameCalls ρ) := by
  have hmem : f.renameCalls ρ ∈ functions' :=
    hfunctions.mem_iff.mp (List.mem_map_of_mem (List.mem_of_getElem? hf))
  obtain ⟨j, hj, hfound⟩ := List.getElem_of_mem hmem
  have hname : (functions.map (·.name))[i]? = some f.name := by
    rw [List.getElem?_map, hf]
    rfl
  -- no other function has the name, so its first position is this one
  have hposition : (functions'.map (·.name)).idxOf f.name = j := by
    have hj' : j < (functions'.map (·.name)).length := by rwa [List.length_map]
    have hget : (functions'.map (·.name))[j] = f.name := by
      rw [List.getElem_map, hfound]
      rfl
    rw [← hget]
    exact hnodup.idxOf_getElem j hj'
  refine ⟨j, ?_, by rw [List.getElem?_eq_getElem hj, hfound]⟩
  rw [hρ, renumber_of_getElem? hname, hposition]

/-- Functions are found under their new numbers also with the allocator, which comes last. -/
theorem getElem?_renumber_append {i : Nat} {f : Function}
    (hf : (functions ++ [allocator])[i]? = some f) : ∃ j : Nat,
      ρ (hostImports.length + i) = hostImports.length + j ∧
        (functions' ++ [allocator])[j]? = some (f.renameCalls ρ) := by
  rcases Nat.lt_or_ge i functions.length with hi | hi
  · rw [List.getElem?_append_left hi] at hf
    obtain ⟨j, hnumber, hfound⟩ := getElem?_renumber hρ hnodup hfunctions hf
    have hj : j < functions'.length := (List.getElem?_eq_some_iff.mp hfound).1
    exact ⟨j, hnumber, by rwa [List.getElem?_append_left hj]⟩
  · rw [List.getElem?_append_right hi, List.getElem?_singleton] at hf
    split at hf
    · obtain rfl := Option.some.inj hf
      have hlength : functions.length = functions'.length := by
        rw [← hfunctions.length_eq, List.length_map]
      obtain rfl : i = functions.length := by omega
      refine ⟨functions.length, ?_, ?_⟩
      · -- the allocator comes after all declared functions and keeps its number
        have hkept := renumber_length (functions.map (·.name)) (functions'.map (·.name))
        rwa [List.length_map, ← hρ] at hkept
      · rw [hlength, List.getElem?_append_right (Nat.le_refl _), Nat.sub_self,
          renameCalls_allocator]
        rfl
    · cases hf

end Positions

/-- The functions of a reordered program are the same up to numbers. -/
theorem Generated.reorder (hd : Generated p t g c functions d)
    (hd' : Generated q t g' c' functions' d') (h : p.Reorders q) (ht : t.Fresh) {ρ : Nat → Nat}
    (hρ : ρ = renumber (declaredNames c) (declaredNames c')) : d.RenumbersTo ρ d' := by
  obtain ⟨g₁, hdeclare, halike⟩ := SymbolTable.declare_of_reorders h hd.declares
  obtain ⟨-, rfl⟩ := EStateM.Result.ok.inj (hdeclare.symm.trans hd'.declares)
  have hstrings : g₁.strings = g.strings := by
    rw [(ht.declared_of_declare hd.declares).rest, (ht.declared_of_declare hd'.declares).rest]
  have hperm : c.statements.Perm c'.statements := by
    rw [eq_map_typed hd.checks,
      eq_map_typed (hd'.checks.imp fun _ _ hs => hs.transfer halike.symm)]
    exact h.perm.map _
  have hrenames :
      Relocatable.Renames ρ (programLinking c g.strings) (programLinking c' g.strings) :=
    hρ ▸ renames_programLinking (hperm.filterMap _) g.strings
  -- the other functions, in the order of the first program
  obtain ⟨ordered, hlowers, hordered⟩ := List.perm_comp_forall₂ hperm hd'.lowers
  have hfunctions : (functions.map (·.renameCalls ρ)).Perm functions' := by
    obtain ⟨rs, hrs⟩ := hd.relocatable
    have hsame : ordered = functions.map (·.renameCalls ρ) := by
      rw [functions_eq_map hrs halike hlowers, functions_eq_map hrs (.refl g) hd.lowers,
        List.map_map, hstrings]
      exact List.map_congr_left fun r _ => (r.renameCalls_link hrenames).symm
    exact hsame ▸ hordered
  have hdeclared : declaredNames c = functions.map (·.name) := names_of_lowered hd.lowers
  have hdeclared' : declaredNames c' = functions'.map (·.name) := names_of_lowered hd'.lowers
  have hnodup : (functions'.map (·.name)).Nodup := hdeclared' ▸ hd'.nodup_declaredNames ht
  rw [hd.descriptor, hd'.descriptor]
  refine ⟨rfl, ?_, ?_, ?_, ?_, ?_, ?_, ?_⟩
  · simp only [hstrings]
  · simp only [SymbolTable.heapBase, hstrings]
  · simp only [SymbolTable.heapBase, hstrings]
  · exact halike.exportsMemory
  · intro k hk
    rw [hρ]
    exact renumber_of_lt hk
  · intro i f hf
    exact getElem?_renumber_append (by rw [hρ, hdeclared, hdeclared']) hnodup hfunctions hf
  · rw [List.map_append, List.map_singleton, renameCalls_allocator]
    exact hfunctions.append_right _

end Generating

end Lowering

/-- Functions may be declared in any order. Of two programs with the same declarations and the same
order of structs, in fresh tables with the same literals, both are accepted or none is. In both, a
declaration gets the same types, and what it is lowered to is the same up to the numbers by which
functions are called. -/
theorem generate_reorders {p q : Program} {t u : SymbolTable} (h : p.Reorders q) (ht : t.Fresh)
    (hu : u.Fresh) (hexports : u.exportsMemory = t.exportsMemory)
    (hstrings : u.strings = t.strings) :
    ((∃ c, Checks p t c) ↔ ∃ c, Checks q u c) ∧
      (∀ c c', Checks p t c → Checks q u c' → ∃ typed : Stmt → Stmt,
        c.statements = p.statements.map typed ∧ c'.statements = q.statements.map typed) ∧
      ∀ d t' d' u', generate p t = .ok d t' → generate q u = .ok d' u' →
        ∃ ρ, d.RenumbersTo ρ d' := by
  obtain rfl := ht.eq hu hexports hstrings
  refine ⟨⟨?_, ?_⟩, ?_, ?_⟩
  · rintro ⟨c, hc⟩
    exact hc.reorder h
  · rintro ⟨c, hc⟩
    exact hc.reorder h.symm
  · intro c c' hc hc'
    obtain ⟨g, htyped⟩ := hc.typed hc' h
    exact ⟨_, htyped⟩
  · intro d t' d' u' hd hd'
    obtain ⟨g, c, functions, hd⟩ := generated_of_generate hd
    obtain ⟨g', c', functions', hd'⟩ := generated_of_generate hd'
    exact ⟨_, hd.reorder hd' h ht rfl⟩

/-- A struct and functions that call one another. -/
def orderSource : String :=
  "struct P \x7b x: i32 \x7d func main() \x7b let p = P(f(2)); print 'a'; \x7d " ++
    "func f(n: i32) -> i32 \x7b return g([n]); \x7d " ++
    "func g(a: [i32]) -> i32 \x7b return f(a[0]); \x7d"

/-- The declarations in reverse, where every function gets another number. -/
theorem generate_reorders_reversed :
    ∃ p q t d d' t' u', p.Reorders q ∧ declaredNames p ≠ declaredNames q ∧ t.Fresh ∧
      generate p t = .ok d t' ∧ generate q t = .ok d' u' ∧ ∃ ρ, d.RenumbersTo ρ d' := by
  let t := ((CompileOptions.symbols {}).parse orderSource).2
  have hruns : (((CompileOptions.symbols {}).parse orderSource).1.toOption.any fun p =>
      ((generate p).run' t).any fun _ => ((generate ⟨p.statements.reverse⟩).run' t).any fun _ =>
        decide ((p.statements.filter Stmt.isStruct).length = 1 ∧
          declaredNames p ≠ declaredNames ⟨p.statements.reverse⟩)) = true := by
    decide +kernel
  have hfresh : t.Fresh := SymbolTable.fresh_parse {} orderSource
  obtain ⟨p, -, hruns⟩ := Except.exists_of_any hruns
  obtain ⟨d, t', hd, hruns⟩ := EStateM.exists_of_any hruns
  obtain ⟨d', u', hd', hruns⟩ := EStateM.exists_of_any hruns
  obtain ⟨hstruct, hnames⟩ := of_decide_eq_true hruns
  have hreorders : p.Reorders ⟨p.statements.reverse⟩ := by
    refine ⟨(List.reverse_perm _).symm, ?_⟩
    -- a list of one struct is its own reverse
    obtain ⟨stmt, hstmt⟩ := List.length_eq_one_iff.mp hstruct
    show _ = p.statements.reverse.filter Stmt.isStruct
    rw [List.filter_reverse, hstmt]
    rfl
  exact ⟨p, _, t, d, d', t', u', hreorders, hnames, hfresh, hd, hd',
    (generate_reorders hreorders hfresh hfresh rfl rfl).2.2 d t' d' u' hd hd'⟩

end WasmCompiler
