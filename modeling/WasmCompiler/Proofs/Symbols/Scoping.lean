import Mathlib.Algebra.GroupWithZero.Nat
import WasmCompiler.Proofs.Typing.Statements

/-!
# Histories of scopes

Between entering a function and leaving it, scopes are opened and closed and variables are defined,
in any order (`History.run`). The events of a history, the last one first, say by themselves which
definitions can still be seen and from how far out (`DefinedAt`); `History.Scoped` relates the four
parts of the table to them: the open scopes, the number of slots, the declared variables and the
variables that were given out. Every call keeps the relation, which is then one of every history.

The result is `History.run_scopes`. Its parts are `Consecutive`, which says of a list of variables
that they have their slots one after another, and `SymbolTable.lookupVariable?_eq_some_iff`, which
says of any table with distinct names what a name stands for.
-/

namespace WasmCompiler

open Wasm (ValueType)
open SymbolTable (define findIn)

/-! ### Calls and events

A call may fail or do nothing, so the events are what is left of the calls that went through. -/

/-- What is done to the scopes of a function. -/
inductive ScopeCall where
  | enter
  | exit
  | define (name : String) (type : DataType) (role : Role) (location : Location)

/-- What was done. -/
inductive ScopeEvent where
  | entered
  | exited
  | defined (var : Variable)

/-- The events since a function was entered, the last one first, and the table after them. -/
structure History where
  events : List ScopeEvent
  table : SymbolTable

namespace History

/-- A function has just been entered. -/
def start (t : SymbolTable) : History :=
  ⟨[], t.enterFunction⟩

/-- A call that fails is no event. -/
def step (h : History) : ScopeCall → History
  | .enter => ⟨.entered :: h.events, h.table.enterScope⟩
  | .exit => ⟨.exited :: h.events, h.table.exitScope⟩
  | .define name type role location =>
    match define name type role location h.table with
    | .ok var t => ⟨.defined var :: h.events, t⟩
    | .error _ t => ⟨h.events, t⟩

/-- What calls lead to, made one after another after a function was entered. -/
def run (t : SymbolTable) (calls : List ScopeCall) : History :=
  calls.foldl step (start t)

end History

/-! ### What the events say

Here nothing is read off a table. A definition can be seen as long as the scope is open that was
innermost when it was made. -/

namespace ScopeEvent

/-- How many scopes are open, of which that of the function is the first. Leaving does nothing if
none is. -/
def openScopes : List ScopeEvent → Nat
  | [] => 1
  | .entered :: before => openScopes before + 1
  | .exited :: before => openScopes before - 1
  | .defined _ :: before => openScopes before

/-- How many scopes further out than the innermost one the scope is that was innermost before some
events; `none` if it has been closed. -/
def levelsOut : List ScopeEvent → Option Nat
  | [] => some 0
  | .entered :: before => (levelsOut before).map (· + 1)
  | .exited :: before => (levelsOut before).bind fun k => if k = 0 then none else some (k - 1)
  | .defined _ :: before => levelsOut before

/-- A variable was defined in a scope that is still open, so many scopes further out. -/
def DefinedAt (events : List ScopeEvent) (k : Nat) (var : Variable) : Prop :=
  ∃ after before, events = after ++ .defined var :: before ∧ levelsOut after = some k

/-- The variables that were defined, in order. -/
def definitions (events : List ScopeEvent) : List Variable :=
  (events.filterMap fun
    | .defined var => some var
    | _ => none).reverse

section Definitions

variable {events : List ScopeEvent} {k : Nat} {var other : Variable}

theorem definedAt_nil : ¬ DefinedAt [] k var := by
  rintro ⟨after, before, h, -⟩
  simp at h

/-- A definition goes on to be seen through events that leave its scope open. -/
theorem definedAt_cons_iff {event : ScopeEvent} (hevent : ∀ var, event ≠ .defined var) :
    DefinedAt (event :: events) k var ↔
      ∃ after before, events = after ++ .defined var :: before ∧
        levelsOut (event :: after) = some k := by
  constructor
  · rintro ⟨after, before, h, hlevel⟩
    cases after with
    | nil => exact absurd (List.cons.inj h).1 (hevent var)
    | cons first after =>
      obtain ⟨rfl, rfl⟩ := List.cons.inj h
      exact ⟨after, before, rfl, hlevel⟩
  · rintro ⟨after, before, rfl, hlevel⟩
    exact ⟨event :: after, before, rfl, hlevel⟩

/-- In a new scope everything is one scope further out. -/
theorem definedAt_entered_iff :
    DefinedAt (.entered :: events) k var ↔ ∃ j, k = j + 1 ∧ DefinedAt events j var := by
  rw [definedAt_cons_iff (by simp)]
  constructor
  · rintro ⟨after, before, rfl, hlevel⟩
    obtain ⟨j, hj, rfl⟩ := Option.map_eq_some_iff.mp hlevel
    exact ⟨j, rfl, after, before, rfl, hj⟩
  · rintro ⟨j, rfl, after, before, rfl, hlevel⟩
    exact ⟨after, before, rfl, by simp [levelsOut, hlevel]⟩

/-- What was in the closed scope is gone. -/
theorem definedAt_exited_iff :
    DefinedAt (.exited :: events) k var ↔ DefinedAt events (k + 1) var := by
  rw [definedAt_cons_iff (by simp)]
  have hlevel (after : List ScopeEvent) :
      levelsOut (.exited :: after) = some k ↔ levelsOut after = some (k + 1) := by
    cases hafter : levelsOut after with
    | none => simp [levelsOut, hafter]
    | some j =>
      cases j with
      | zero => simp [levelsOut, hafter]
      | succ j => simp [levelsOut, hafter]
  simp only [hlevel, DefinedAt]

/-- A new definition is in the innermost scope, where the others stay as far out as they were. -/
theorem definedAt_defined_iff :
    DefinedAt (.defined other :: events) k var ↔ k = 0 ∧ var = other ∨ DefinedAt events k var := by
  constructor
  · rintro ⟨after, before, h, hlevel⟩
    cases after with
    | nil =>
      obtain ⟨hvar, -⟩ := List.cons.inj h
      exact .inl ⟨(Option.some.inj hlevel).symm, (ScopeEvent.defined.inj hvar).symm⟩
    | cons first after =>
      obtain ⟨rfl, rfl⟩ := List.cons.inj h
      exact .inr ⟨after, before, rfl, hlevel⟩
  · rintro (⟨rfl, rfl⟩ | ⟨after, before, rfl, hlevel⟩)
    · exact ⟨[], events, rfl, rfl⟩
    · exact ⟨.defined other :: after, before, rfl, hlevel⟩

/-- The last definition is the last of the list. -/
@[simp] theorem definitions_defined :
    definitions (.defined var :: events) = definitions events ++ [var] := by
  simp [definitions]

end Definitions

end ScopeEvent

open ScopeEvent (openScopes DefinedAt definitions definedAt_nil definedAt_entered_iff
  definedAt_exited_iff definedAt_defined_iff)

/-! ### Slots in order

Slots are never given back, so closed scopes do not matter here. -/

/-- Variables have consecutive slots from zero up to a limit. -/
structure Consecutive (vars : List Variable) (limit : Nat) : Prop where
  slot : ∀ before var after, vars = before ++ var :: after →
    var.slot = (before.map (·.type.width)).sum
  total : limit = (vars.map (·.type.width)).sum
  covers : vars.flatMap (fun var => List.range' var.slot var.type.width) = List.range limit
  apart : vars.Pairwise fun var later => var.slot + var.type.width ≤ later.slot
  below : ∀ var ∈ vars, var.slot + var.type.width ≤ limit

theorem consecutive_nil : Consecutive [] 0 :=
  ⟨by simp, rfl, rfl, .nil, by simp⟩

/-- The next variable begins where the others end. -/
theorem Consecutive.snoc {vars : List Variable} {limit : Nat} {var : Variable}
    (h : Consecutive vars limit) (hvar : var.slot = limit) :
    Consecutive (vars ++ [var]) (limit + var.type.width) := by
  refine ⟨?_, ?_, ?_, ?_, ?_⟩
  · intro before other after hsplit
    -- the new variable is the last one, every other one is followed by it
    rcases List.eq_nil_or_concat after with rfl | ⟨after, last, rfl⟩
    · obtain ⟨rfl, hlast⟩ := List.append_inj' hsplit rfl
      obtain ⟨rfl, -⟩ := List.cons.inj hlast
      rw [hvar, h.total]
    · have hinit : vars ++ [var] = (before ++ other :: after) ++ [last] := by
        simpa using hsplit
      exact h.slot before other after (List.append_inj' hinit rfl).1
  · rw [List.map_append, List.sum_append, ← h.total]
    simp
  · rw [List.flatMap_append, h.covers, List.flatMap_singleton, hvar, List.range_eq_range',
      List.range_eq_range']
    have happend := @List.range'_append 0 limit var.type.width 1
    rwa [Nat.zero_add, Nat.one_mul] at happend
  · rw [List.pairwise_append]
    refine ⟨h.apart, List.pairwise_singleton _ _, fun other hother last hlast => ?_⟩
    obtain rfl := List.mem_singleton.mp hlast
    rw [hvar]
    exact h.below other hother
  · rw [List.forall_mem_append]
    refine ⟨fun other hother => Nat.le_add_right_of_le (h.below other hother), ?_⟩
    simp [hvar]

/-! ### Scopes by level

The scopes of a table by how far out they are, which is how the events count them. -/

namespace SymbolTable

variable {t : SymbolTable}

/-- A variable is in a scope that is so many scopes further out than the innermost one. -/
def VisibleAt (t : SymbolTable) (k : Nat) (var : Variable) : Prop :=
  ∃ scope ∈ t.scopes[k]?, var ∈ scope

/-- The variables of each scope have names of their own. -/
def Distinct (t : SymbolTable) : Prop :=
  ∀ scope ∈ t.scopes, (scope.map (·.name)).Nodup

/-- Where names are distinct, a name stands for whichever variable has it. -/
theorem findIn_eq_some_iff {scope : List Variable} (hscope : (scope.map (·.name)).Nodup)
    {name : String} {var : Variable} :
    findIn name scope = some var ↔ var ∈ scope ∧ var.name = name := by
  unfold findIn
  induction scope with
  | nil => simp
  | cons first scope ih =>
    rw [List.map_cons, List.nodup_cons] at hscope
    rw [List.find?_cons]
    by_cases hfirst : first.name = name
    · simp only [hfirst, decide_true, Option.some.injEq, List.mem_cons]
      constructor
      · rintro rfl
        exact ⟨.inl rfl, hfirst⟩
      · rintro ⟨rfl | hmem, hname⟩
        · rfl
        · -- a second variable of the name is in the way
          exact absurd (List.mem_map.mpr ⟨var, hmem, hname.trans hfirst.symm⟩) hscope.1
    · simp only [hfirst, decide_false, ih hscope.2, List.mem_cons]
      constructor
      · rintro ⟨hmem, hname⟩
        exact ⟨.inr hmem, hname⟩
      · rintro ⟨rfl | hmem, hname⟩
        · exact absurd hname hfirst
        · exact ⟨hmem, hname⟩

/-- A name stands for nothing in a scope where no variable has it. -/
theorem findIn_eq_none_iff {scope : List Variable} {name : String} :
    findIn name scope = none ↔ ∀ var ∈ scope, var.name ≠ name := by
  simp [findIn]

/-- A name stands for nothing if no variable that can be seen has it. -/
theorem lookupVariable?_eq_none_iff {name : String} :
    t.lookupVariable? name = none ↔ ∀ k var, t.VisibleAt k var → var.name ≠ name := by
  unfold lookupVariable?
  rw [List.findSome?_eq_none_iff]
  simp only [findIn_eq_none_iff]
  constructor
  · rintro h k var ⟨scope, hscope, hmem⟩
    exact h scope (List.mem_of_getElem? hscope) var hmem
  · intro h scope hscope var hmem
    obtain ⟨k, hk⟩ := List.mem_iff_getElem?.mp hscope
    exact h k var ⟨scope, hk, hmem⟩

/-- A name stands for the variable that has it and can be seen from nearest by. -/
theorem lookupVariable?_eq_some_iff (ht : t.Distinct) {name : String} {var : Variable} :
    t.lookupVariable? name = some var ↔
      ∃ k, t.VisibleAt k var ∧ var.name = name ∧
        ∀ j < k, ∀ other, t.VisibleAt j other → other.name ≠ name := by
  unfold lookupVariable?
  rw [List.findSome?_eq_some_iff]
  constructor
  · -- the scopes before the one that has the name are the nearer ones
    rintro ⟨inner, scope, outer, hsplit, hfound, hnone⟩
    have hscope : scope ∈ t.scopes := by simp [hsplit]
    obtain ⟨hmem, hname⟩ := (findIn_eq_some_iff (ht scope hscope)).mp hfound
    refine ⟨inner.length, ⟨scope, by simp [hsplit], hmem⟩, hname, ?_⟩
    rintro j hj other ⟨nearer, hnearer, hother⟩
    rw [hsplit, List.getElem?_append_left hj] at hnearer
    exact findIn_eq_none_iff.mp (hnone nearer (List.mem_of_getElem? hnearer)) other hother
  · rintro ⟨k, ⟨scope, hscope, hmem⟩, hname, hnearer⟩
    obtain ⟨hk, hget⟩ := List.getElem?_eq_some_iff.mp hscope
    refine ⟨t.scopes.take k, scope, t.scopes.drop (k + 1), ?_, ?_, ?_⟩
    · rw [← hget, List.getElem_cons_drop, List.take_append_drop]
    · exact (findIn_eq_some_iff (ht scope (List.mem_of_getElem? hscope))).mpr ⟨hmem, hname⟩
    · intro nearer hmem
      obtain ⟨j, hj⟩ := List.mem_iff_getElem?.mp hmem
      have hlt : j < k := by
        have hlength := (List.getElem?_eq_some_iff.mp hj).1
        rw [List.length_take] at hlength
        omega
      rw [List.getElem?_take_of_lt hlt] at hj
      exact findIn_eq_none_iff.mpr fun other hother => hnearer j hlt other ⟨nearer, hj, hother⟩

/-- The innermost scope is the one at the head. -/
theorem visibleAt_zero_iff {var : Variable} :
    t.VisibleAt 0 var ↔ var ∈ t.scopes.headD [] := by
  unfold VisibleAt
  cases t.scopes with
  | nil => simp
  | cons scope outer => simp

end SymbolTable

/-! ### Histories

Table and events start in step, and every call keeps them so. -/

namespace History

variable {h : History} {t : SymbolTable}

/-- The table has what the events of a history say. -/
structure Scoped (h : History) : Prop where
  depth : h.table.scopes.length = openScopes h.events
  visible : ∀ k var, h.table.VisibleAt k var ↔ DefinedAt h.events k var
  distinct : h.table.Distinct
  slots : Consecutive (definitions h.events) h.table.nextSlot
  declared : h.table.declared = (definitions h.events).filter (·.role = .declaration)

/-- A function begins with one open scope, no variable and no slot. -/
theorem scoped_start (ht : t.scopes = []) : (start t).Scoped := by
  have hscopes : (start t).table.scopes = [[]] := by simp [start, SymbolTable.enterFunction, ht]
  refine ⟨by rw [hscopes]; rfl, fun k var => ?_, ?_, consecutive_nil, rfl⟩
  · refine iff_of_false ?_ definedAt_nil
    rintro ⟨scope, hscope, hmem⟩
    rw [hscopes] at hscope
    obtain rfl : scope = [] := by simpa using List.mem_of_getElem? hscope
    cases hmem
  · intro scope hscope
    rw [hscopes] at hscope
    obtain rfl := List.mem_singleton.mp hscope
    exact List.nodup_nil

/-- Opening a scope puts everything one scope further out. -/
theorem Scoped.enter (hh : h.Scoped) : (h.step .enter).Scoped := by
  refine ⟨congrArg (· + 1) hh.depth, fun k var => ?_, ?_, hh.slots, hh.declared⟩
  · show (∃ scope ∈ ([] :: h.table.scopes)[k]?, var ∈ scope) ↔
      DefinedAt (.entered :: h.events) k var
    rw [definedAt_entered_iff]
    -- every scope is one level further out
    cases k with
    | zero => simp
    | succ k =>
      simp only [List.getElem?_cons_succ]
      constructor
      · intro hvisible
        exact ⟨k, rfl, (hh.visible k var).mp hvisible⟩
      · rintro ⟨j, hj, hdefined⟩
        obtain rfl := Nat.succ.inj hj
        exact (hh.visible k var).mpr hdefined
  · intro scope hscope
    rcases List.mem_cons.mp hscope with rfl | hscope
    · exact List.nodup_nil
    · exact hh.distinct scope hscope

/-- Closing a scope brings everything one scope nearer, and what was in it is gone. Slots and
declared variables stay. -/
theorem Scoped.exit (hh : h.Scoped) : (h.step .exit).Scoped := by
  refine ⟨?_, fun k var => ?_, ?_, hh.slots, hh.declared⟩
  · show h.table.scopes.tail.length = openScopes h.events - 1
    rw [List.length_tail, hh.depth]
  · show (∃ scope ∈ h.table.scopes.tail[k]?, var ∈ scope) ↔ DefinedAt (.exited :: h.events) k var
    rw [definedAt_exited_iff, ← hh.visible, List.getElem?_tail]
    rfl
  · intro scope hscope
    exact hh.distinct scope (List.mem_of_mem_tail hscope)

/-- A variable that is defined is one more of the innermost scope. -/
theorem Scoped.defined (hh : h.Scoped) {name : String} {type : DataType} {role : Role}
    {location : Location} {var : Variable} {t' : SymbolTable}
    (hdefine : h.table.defineVariable name type role location = .ok (var, t')) :
    Scoped ⟨.defined var :: h.events, t'⟩ := by
  obtain ⟨hopen, hnew, hvar, rfl⟩ := SymbolTable.defineVariable_eq_ok_iff.mp hdefine
  have hname : var.name = name := congrArg Variable.name hvar
  have hslot : var.slot = h.table.nextSlot := congrArg Variable.slot hvar
  obtain ⟨scope, outer, hscopes⟩ := List.exists_cons_of_ne_nil hopen
  have hscopes' : (h.table.withVariable var).scopes = (var :: scope) :: outer := by
    simp [SymbolTable.withVariable, hscopes]
  refine ⟨?_, fun k other => ?_, ?_, ?_, ?_⟩
  · show (h.table.withVariable var).scopes.length = openScopes h.events
    rw [← hh.depth, hscopes', hscopes]
    rfl
  · show (∃ found ∈ (h.table.withVariable var).scopes[k]?, other ∈ found) ↔ _
    rw [definedAt_defined_iff, ← hh.visible, SymbolTable.VisibleAt, hscopes', hscopes]
    -- only the innermost scope has changed
    cases k with
    | zero => simp
    | succ k => simp
  · intro found hfound
    rw [hscopes'] at hfound
    rcases List.mem_cons.mp hfound with rfl | hfound
    · rw [List.map_cons, List.nodup_cons]
      refine ⟨?_, hh.distinct scope (by simp [hscopes])⟩
      rw [hname]
      intro hmem
      obtain ⟨other, hother, hsame⟩ := List.mem_map.mp hmem
      -- the definition went through, so the scope did not have the name
      rw [hscopes, List.headD_cons] at hnew
      exact SymbolTable.findIn_eq_none_iff.mp hnew other hother hsame
    · exact hh.distinct found (by simp [hscopes, hfound])
  · rw [ScopeEvent.definitions_defined]
    exact hh.slots.snoc hslot
  · rw [ScopeEvent.definitions_defined, List.filter_append, ← hh.declared]
    simp only [SymbolTable.withVariable]
    split
    · rename_i hrole
      simp [hrole]
    · rename_i hrole
      simp [hrole]

/-- Every call keeps the relation between events and table. -/
theorem Scoped.step (hh : h.Scoped) (call : ScopeCall) : (h.step call).Scoped := by
  cases call with
  | enter => exact hh.enter
  | exit => exact hh.exit
  | define name type role location =>
    unfold History.step
    cases hrun : SymbolTable.define name type role location h.table with
    | ok var t' =>
      simp only [hrun]
      exact hh.defined (define_eq_ok_iff.mp hrun)
    | error e t' =>
      simp only [hrun]
      obtain ⟨-, rfl⟩ := define_eq_error_iff.mp hrun
      exact hh

/-- By induction over the calls. -/
theorem scoped_run (ht : t.scopes = []) (calls : List ScopeCall) : (run t calls).Scoped := by
  have hfrom : ∀ h : History, h.Scoped → (calls.foldl History.step h).Scoped := by
    induction calls with
    | nil => exact fun h hh => hh
    | cons call calls ih => exact fun h hh => ih (h.step call) (hh.step call)
  exact hfrom _ (scoped_start ht)

/-- A name can be defined if a scope is open and the innermost one does not have it. -/
theorem Scoped.define_eq_error_iff (hh : h.Scoped) {name : String} {type : DataType} {role : Role}
    {location : Location} {e : SemanticError} {t' : SymbolTable} :
    SymbolTable.define name type role location h.table = .error e t' ↔
      t' = h.table ∧
        (openScopes h.events = 0 ∧ e = .misplaced (.variableOutsideScope name) location ∨
          (∃ var, DefinedAt h.events 0 var ∧ var.name = name) ∧ e = .duplicate name location) := by
  have hclosed : h.table.scopes = [] ↔ openScopes h.events = 0 := by
    rw [← hh.depth, List.length_eq_zero_iff]
  have htaken : findIn name (h.table.scopes.headD []) ≠ none ↔
      ∃ var, DefinedAt h.events 0 var ∧ var.name = name := by
    simp only [← hh.visible, SymbolTable.visibleAt_zero_iff, ne_eq, SymbolTable.findIn_eq_none_iff]
    simp
  rw [WasmCompiler.define_eq_error_iff, SymbolTable.defineVariable_eq_error_iff, hclosed, htaken,
    and_comm, eq_comm]

/-- Every history of scopes from a table without any: slots are given out without gaps, a name
stands for the definition of it that can be seen from nearest by, a definition fails where no scope
is open or the innermost one has the name and then changes nothing, and leaving the function gives
the list of its declarations in order. -/
theorem run_scopes (t : SymbolTable) (ht : t.scopes = []) (calls : List ScopeCall) :
    let h := run t calls
    Consecutive (definitions h.events) h.table.nextSlot ∧
      (∀ name var, h.table.lookupVariable? name = some var ↔
        ∃ k, DefinedAt h.events k var ∧ var.name = name ∧
          ∀ j < k, ∀ other, DefinedAt h.events j other → other.name ≠ name) ∧
      (∀ name, h.table.lookupVariable? name = none ↔
        ∀ k var, DefinedAt h.events k var → var.name ≠ name) ∧
      (∀ name type role location e t', define name type role location h.table = .error e t' ↔
        t' = h.table ∧
          (openScopes h.events = 0 ∧ e = .misplaced (.variableOutsideScope name) location ∨
            (∃ var, DefinedAt h.events 0 var ∧ var.name = name) ∧ e = .duplicate name location)) ∧
      h.table.leaveFunction.1 = (definitions h.events).filter (·.role = .declaration) ∧
      h.table.leaveFunction.1.Pairwise fun var later =>
        var.slot + var.type.width ≤ later.slot := by
  intro h
  have hh : h.Scoped := scoped_run ht calls
  refine ⟨hh.slots, fun name var => ?_, fun name => ?_, ?_, hh.declared, ?_⟩
  · simp only [SymbolTable.lookupVariable?_eq_some_iff hh.distinct, hh.visible]
  · simp only [SymbolTable.lookupVariable?_eq_none_iff, hh.visible]
  · exact fun name type role location e t' => hh.define_eq_error_iff
  · rw [SymbolTable.leaveFunction, hh.declared]
    exact hh.slots.apart.filter _

/-- A variable of a block hides the parameter until the block is closed, and its slots stay
taken. -/
theorem run_scopes_hidden :
    (SymbolTable.empty defaultMemoryStart).scopes = [] ∧
      let t := (run (.empty defaultMemoryStart) [.define "a" .i32 .parameter ⟨1, 1⟩, .enter,
        .define "a" (.tuple [.i32, .f64]) .declaration ⟨1, 2⟩, .define "a" .i32 .declaration ⟨1, 3⟩,
        .exit, .define "b" .none .declaration ⟨1, 4⟩]).table
      t.nextSlot = 3 ∧ t.lookupVariable? "a" = some ⟨"a", .i32, 0, .parameter⟩ ∧
        t.leaveFunction.1 =
          [⟨"a", .tuple [.i32, .f64], 1, .declaration⟩, ⟨"b", .none, 3, .declaration⟩] := by
  refine ⟨rfl, ?_⟩
  obtain ⟨hslots, hlookup, -, -, hdeclared, -⟩ := run_scopes (.empty defaultMemoryStart) rfl
    [.define "a" .i32 .parameter ⟨1, 1⟩, .enter,
      .define "a" (.tuple [.i32, .f64]) .declaration ⟨1, 2⟩, .define "a" .i32 .declaration ⟨1, 3⟩,
      .exit, .define "b" .none .declaration ⟨1, 4⟩]
  refine ⟨hslots.total, (hlookup _ _).mpr ⟨0, ?_, rfl, by simp⟩, hdeclared⟩
  exact ⟨[.defined ⟨"b", .none, 3, .declaration⟩, .exited,
    .defined ⟨"a", .tuple [.i32, .f64], 1, .declaration⟩, .entered], [], rfl, rfl⟩

end History

end WasmCompiler
