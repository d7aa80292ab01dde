import Mathlib.Data.List.Forall2
import WasmCompiler.Proofs.Lowering.Layout
import WasmCompiler.Proofs.Machine.Run
import WasmCompiler.Proofs.Semantics.Source

/-!
# Variables on both sides

How the variables of an evaluation stand in the locals of a machine (`Shows`): scope by scope, each
in the slots of its variable of the symbol table. A name finds the same variable on both sides
(`Shows.lookup`), and what is assigned or declared on one side is written on the other
(`Shows.assign`, `Shows.declare`); the variables beside it stay, since slots are apart.

The invariant is that scopes and tables have the same shape. `Shows.keep` reduces a change of the
locals to one variable at a time, and `Holds.written` settles this one by the slots being apart
(`SymbolTable.Layout`).
-/

namespace WasmCompiler

open Lowering
open Source (Datum Scopes World)
open Wasm (Agrees InLocals Value ValueType Written)

/-! ### Types of values

Values as machine values of the types that are asked for. -/

/-- The value is made up as a type asks. -/
def HasType (d : Datum) (type : DataType) : Prop :=
  d.values.map (·.type) = type.machineTypes

theorem HasType.length {d : Datum} {type : DataType} (h : HasType d type) :
    d.values.length = type.width := by
  rw [DataType.width, ← h, List.length_map]

theorem eq_of_map_type_i32 {values : List Value} (h : values.map (·.type) = [.i32]) :
    ∃ w, values = [.i32 w] := by
  match values, h with
  | [.i32 w], _ => exact ⟨w, rfl⟩

theorem eq_of_map_type_f32 {values : List Value} (h : values.map (·.type) = [.f32]) :
    ∃ x, values = [.f32 x] := by
  match values, h with
  | [.f32 x], _ => exact ⟨x, rfl⟩

/-- What can be stored is one machine value. -/
theorem HasType.single {d : Datum} {type : DataType} (h : HasType d type) (htype : type.Storable) :
    ∃ v, d.values = [v] ∧ v.type = cellType type := by
  rw [HasType, htype] at h
  exact List.map_eq_singleton_iff.mp h

theorem HasType.word {d : Datum} {type : DataType} (h : HasType d type)
    (htype : type.machineTypes = [.i32]) : ∃ w, d.values = [.i32 w] ∧ ∀ world : World,
      d.word world = .ok (w, world) := by
  rw [HasType, htype] at h
  obtain ⟨w, hw⟩ := eq_of_map_type_i32 h
  obtain ⟨type', values⟩ := d
  obtain rfl := hw
  exact ⟨w, rfl, fun _ => rfl⟩

/-! ### Variables

How scopes and locals go together, and what keeps them so. -/

/-- A variable of an evaluation stands in the slots of a variable of the table. -/
structure Holds (locals : Array Value) (entry : String × Datum) (var : Variable) : Prop where
  name : entry.1 = var.name
  type : entry.2.type = var.type
  values : HasType entry.2 var.type
  slots : InLocals locals var.slot entry.2.values

/-- The variables of an evaluation stand in locals, scope by scope. -/
def Shows (locals : Array Value) (scopes : Scopes) (vars : List (List Variable)) : Prop :=
  List.Forall₂ (List.Forall₂ (Holds locals)) scopes vars

section Variables

variable {locals locals' : Array Value} {scopes : Scopes} {t : SymbolTable}

/-- One scope, if each of its variables is kept. -/
theorem forall₂_keep {scope : List (String × Datum)} {vars : List Variable}
    (h : List.Forall₂ (Holds locals) scope vars)
    (hkeep : ∀ var ∈ vars, ∀ entry, Holds locals entry var → Holds locals' entry var) :
    List.Forall₂ (Holds locals') scope vars := by
  induction h with
  | nil => exact .nil
  | cons hentry _ ih =>
    rw [List.forall_mem_cons] at hkeep
    exact .cons (hkeep.1 _ hentry) (ih hkeep.2)

/-- Locals that keep each variable keep all scopes. -/
theorem Shows.keep {vars : List (List Variable)} (h : Shows locals scopes vars)
    (hkeep : ∀ var ∈ vars.flatten, ∀ entry, Holds locals entry var → Holds locals' entry var) :
    Shows locals' scopes vars := by
  induction h with
  | nil => exact .nil
  | cons hscope _ ih =>
    rw [List.flatten_cons, List.forall_mem_append] at hkeep
    exact .cons (forall₂_keep hscope hkeep.1) (ih hkeep.2)

/-- Locals that agree below a number keep the variables whose slots are below it. -/
theorem Shows.agrees {vars : List (List Variable)} {n : Nat} (h : Shows locals scopes vars)
    (hagrees : Agrees n locals locals')
    (hle : ∀ var ∈ vars.flatten, var.slot + var.type.width ≤ n) : Shows locals' scopes vars :=
  h.keep fun var hvar _ hentry => ⟨hentry.name, hentry.type, hentry.values,
    hentry.slots.agrees hagrees (by rw [hentry.values.length]; exact hle var hvar)⟩

/-- A variable stays when slots are written that are not its own. -/
theorem Holds.written {entry : String × Datum} {var : Variable} {slot : Nat} {values : List Value}
    (h : Holds locals entry var) (hwritten : Written locals slot values locals')
    (hapart : var.slot + var.type.width ≤ slot ∨ slot + values.length ≤ var.slot) :
    Holds locals' entry var := by
  refine ⟨h.name, h.type, h.values, fun k v hk => ?_⟩
  have hlt : k < var.type.width := by
    rw [← h.values.length]
    exact (List.getElem?_eq_some_iff.mp hk).1
  rw [hwritten.others _ (by omega)]
  exact h.slots k v hk

/-! ### Reading

Finding a variable by its name. -/

/-- A name finds the same entry of a scope on both sides, or none on either. -/
theorem lookup_of_findIn {scope : List (String × Datum)} {vars : List Variable} (name : String)
    (h : List.Forall₂ (Holds locals) scope vars) :
    (∀ var, SymbolTable.findIn name vars = some var →
      ∃ d, scope.lookup name = some d ∧ Holds locals (name, d) var) ∧
    (SymbolTable.findIn name vars = none → scope.lookup name = none) := by
  induction h with
  | nil => simp [SymbolTable.findIn]
  | @cons entry var scope vars hentry _ ih =>
    obtain ⟨n, d⟩ := entry
    -- both lists have the same names in the same order
    have hname : n = var.name := hentry.name
    by_cases heq : var.name = name
    · have hn : (name == n) = true := by simp [hname, heq]
      simp only [SymbolTable.findIn, List.find?_cons, heq, decide_true, Option.some.injEq,
        List.lookup_cons, hn, reduceCtorEq, false_implies, and_true]
      rintro _ rfl
      refine ⟨d, rfl, ?_⟩
      rw [← heq, ← hname]
      exact hentry
    · have hn : (name == n) = false := by simp [hname, Ne.symm heq]
      simp only [SymbolTable.findIn, List.find?_cons, heq, decide_false, List.lookup_cons, hn]
      exact ih

/-- A name stands for a variable that holds what the variable of the table stands for. -/
theorem Shows.lookup (h : Shows locals scopes t.scopes) {name : String} {var : Variable}
    (hvar : t.lookupVariable? name = some var) :
    ∃ d, Source.lookup name scopes = some d ∧ Holds locals (name, d) var := by
  unfold SymbolTable.lookupVariable? at hvar
  generalize t.scopes = vars at h hvar
  induction h with
  | nil => cases hvar
  | @cons scope vars scopes rest hscope _ ih =>
    obtain ⟨hfound, hmissing⟩ := lookup_of_findIn name hscope
    rw [List.findSome?_cons] at hvar
    rw [Source.lookup, List.findSome?_cons]
    -- an inner scope hides the outer ones, in the table as in the run
    cases hfind : SymbolTable.findIn name vars with
    | some found =>
      rw [hfind] at hvar
      obtain rfl := Option.some.inj hvar
      obtain ⟨d, hd, hholds⟩ := hfound found hfind
      rw [hd]
      exact ⟨d, rfl, hholds⟩
    | none =>
      rw [hfind] at hvar
      rw [hmissing hfind]
      exact ih hvar

/-! ### Writing

Assigning to a variable and declaring one. -/

/-- The variable that the name finds gets the values, and the others stay. -/
theorem assignIn_of_findIn {scope : List (String × Datum)} {vars : List Variable} (name : String)
    (values : List Value) (locals' : Array Value) (h : List.Forall₂ (Holds locals) scope vars)
    (hapart : vars.Pairwise fun later earlier => earlier.slot + earlier.type.width ≤ later.slot) :
    (∀ var, SymbolTable.findIn name vars = some var →
      values.map (·.type) = var.type.machineTypes → Written locals var.slot values locals' →
      ∃ scope', Source.assignIn name values scope = some scope' ∧
        List.Forall₂ (Holds locals') scope' vars) ∧
    (SymbolTable.findIn name vars = none → Source.assignIn name values scope = none) := by
  induction h with
  | nil => simp [SymbolTable.findIn, Source.assignIn]
  | @cons entry other scope vars hentry hrest ih =>
    obtain ⟨n, d⟩ := entry
    have hname : n = other.name := hentry.name
    rw [List.pairwise_cons] at hapart
    by_cases heq : other.name = name
    · have hn : n = name := hname.trans heq
      simp only [SymbolTable.findIn, List.find?_cons, heq, decide_true, Option.some.injEq,
        Source.assignIn, hn, ↓reduceIte, reduceCtorEq, false_implies, and_true]
      rintro _ rfl htypes hwritten
      refine ⟨_, rfl, .cons ⟨heq.symm, hentry.type, htypes, hwritten.holds⟩ ?_⟩
      -- the variables before lie in slots below the written ones
      exact forall₂_keep hrest fun var hvar _ hvarEntry =>
        hvarEntry.written hwritten (.inl (hapart.1 var hvar))
    · have hn : n ≠ name := hname ▸ heq
      simp only [SymbolTable.findIn, List.find?_cons, heq, decide_false, Source.assignIn, hn,
        ↓reduceIte]
      obtain ⟨hfound, hmissing⟩ := ih hapart.2
      refine ⟨fun var hvar htypes hwritten => ?_, fun hnone => ?_⟩
      · obtain ⟨scope', hscope', hholds⟩ := hfound var hvar htypes hwritten
        have hlength : values.length = var.type.width := by
          rw [DataType.width, ← htypes, List.length_map]
        refine ⟨(n, d) :: scope', by rw [hscope', Option.map_some], .cons ?_ hholds⟩
        -- this variable lies in slots above the written ones
        refine hentry.written hwritten (.inr ?_)
        rw [hlength]
        exact hapart.1 var (List.mem_of_find?_eq_some hvar)
      · rw [hmissing hnone, Option.map_none]

/-- New values of a variable go into its slots. -/
theorem Shows.assign (h : Shows locals scopes t.scopes) {name : String} {var : Variable}
    {values : List Value} (hvar : t.lookupVariable? name = some var)
    (hapart : t.scopes.flatten.Pairwise fun later earlier =>
      earlier.slot + earlier.type.width ≤ later.slot)
    (htypes : values.map (·.type) = var.type.machineTypes)
    (hwritten : Written locals var.slot values locals') :
    ∃ scopes', Source.assign name values scopes = some scopes' ∧
      Shows locals' scopes' t.scopes := by
  have hlength : values.length = var.type.width := by
    rw [DataType.width, ← htypes, List.length_map]
  unfold SymbolTable.lookupVariable? at hvar
  generalize t.scopes = vars at h hvar hapart
  induction h with
  | nil => cases hvar
  | @cons scope vars scopes rest hscope hscopes ih =>
    rw [List.flatten_cons, List.pairwise_append] at hapart
    obtain ⟨hinner, houter, hacross⟩ := hapart
    obtain ⟨hfound, hmissing⟩ := assignIn_of_findIn name values locals' hscope hinner
    rw [List.findSome?_cons] at hvar
    rw [Source.assign]
    cases hfind : SymbolTable.findIn name vars with
    | some found =>
      rw [hfind] at hvar
      obtain rfl := Option.some.inj hvar
      obtain ⟨scope', hscope', hholds⟩ := hfound found hfind htypes hwritten
      rw [hscope']
      refine ⟨_, rfl, .cons hholds (Shows.keep hscopes fun other hother _ hentry => ?_)⟩
      -- the variables of outer scopes lie below the written slots
      exact hentry.written hwritten
        (.inl (hacross found (List.mem_of_find?_eq_some hfind) other hother))
    | none =>
      rw [hfind] at hvar
      obtain ⟨scopes', hscopes', hshows⟩ := ih hvar houter
      rw [hmissing hfind, hscopes']
      -- the variable belongs to an outer scope, and this scope lies above it
      obtain ⟨outer, houterMem, hmem⟩ := List.exists_of_findSome?_eq_some hvar
      have hvarMem : var ∈ rest.flatten :=
        List.mem_flatten.mpr ⟨outer, houterMem, List.mem_of_find?_eq_some hmem⟩
      refine ⟨_, rfl, .cons (forall₂_keep hscope fun other hother _ hentry => ?_) hshows⟩
      refine hentry.written hwritten (.inr ?_)
      rw [hlength]
      exact hacross other hother var hvarMem

theorem Shows.exists_cons (h : Shows locals scopes t.scopes) (hopen : t.scopes ≠ []) :
    ∃ scope outer, scopes = scope :: outer := by
  generalize t.scopes = vars at h hopen
  cases h with
  | nil => exact absurd rfl hopen
  | @cons scope _ outer _ _ _ => exact ⟨scope, outer, rfl⟩

theorem Shows.push {entry : String × Datum} {scope : List (String × Datum)} {outer : Scopes}
    {var : Variable} (h : Shows locals (scope :: outer) t.scopes)
    (hentry : Holds locals entry var) :
    Shows locals ((entry :: scope) :: outer) (t.withVariable var).scopes := by
  show Shows _ _ ((var :: t.scopes.headD []) :: t.scopes.tail)
  generalize t.scopes = vars at h
  cases h with
  | cons hscope houter => exact .cons (.cons hentry hscope) houter

/-- A new variable goes into the slots after all others. -/
theorem Shows.declare {scope : List (String × Datum)} {outer : Scopes} {params : List ValueType}
    (h : Shows locals (scope :: outer) t.scopes) (ht : t.Layout params) (var : Variable)
    {values : List Value} (hslot : var.slot = t.nextSlot)
    (htypes : values.map (·.type) = var.type.machineTypes)
    (hwritten : Written locals var.slot values locals') :
    Shows locals' (((var.name, ⟨var.type, values⟩) :: scope) :: outer)
      (t.withVariable var).scopes := by
  have hkept : Shows locals' (scope :: outer) t.scopes :=
    h.keep fun other hother _ hentry =>
      hentry.written hwritten (.inl (by rw [hslot]; exact (ht.visible other hother).1))
  exact hkept.push ⟨rfl, rfl, htypes, hwritten.holds⟩

end Variables

end WasmCompiler
