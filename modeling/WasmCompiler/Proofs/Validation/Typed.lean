import Mathlib.Data.List.Induction
import Mathlib.Data.Option.Basic
import WasmCompiler.Proofs.Lowering.Code
import WasmCompiler.Wasm.Validation

/-!
# Typing pieces of code

Validation goes through the code of a function once and carries the whole stack along. Two
judgements say what one piece of code does, whatever lies below:

* `Typed v params code results`: the code takes values of the types `params` from the stack and
  leaves `results`. Such code can be put one piece after the other and under other values.
* `Balanced v code`: the code of a statement. Between statements the stack is empty, and after a
  return it is that of code which is never reached.

There is one lemma for each instruction and for each sequence that lowering uses.
-/

namespace WasmCompiler.Wasm.Validation

/-! ### Stacks

Pushing and popping, also on a stack that is never reached. -/

namespace Stack

theorem pushAll_nil (s : Stack) : s.pushAll [] = s := rfl

theorem pushAll_append (s : Stack) (types types' : List ValueType) :
    s.pushAll (types ++ types') = (s.pushAll types).pushAll types' := by
  simp [pushAll]

theorem pushAll_singleton (s : Stack) (type : ValueType) : s.pushAll [type] = s.push type := rfl

@[simp] theorem pop_push (s : Stack) (type : ValueType) : (s.push type).pop type = some s := by
  simp [pop, push]

/-- What was pushed is taken off again, the last type first. -/
@[simp] theorem popAll_pushAll (s : Stack) (types : List ValueType) :
    (s.pushAll types).popAll types = some s := by
  induction types using List.reverseRecOn with
  | nil => rfl
  | append_singleton types type ih =>
    have hpop : ((s.pushAll types).push type).popAll (types ++ [type]) =
        (s.pushAll types).popAll types := by
      simp [popAll]
    rw [pushAll_append, pushAll_singleton, hpop, ih]

/-- Code that is not reached can have whatever is asked of it. -/
theorem popAll_dead (types : List ValueType) : Stack.dead.popAll types = some .dead := by
  rw [popAll]
  induction types.reverse with
  | nil => rfl
  | cons type types ih =>
    rw [List.foldlM_cons]
    exact ih

end Stack

theorem endsWith_pushAll (results : List ValueType) (unreached : Bool) :
    endsWith results (Stack.pushAll results ⟨[], unreached⟩) := by
  rw [endsWith, Stack.popAll_pushAll]
  rfl

theorem endsWith_dead (results : List ValueType) : endsWith results .dead := by
  rw [endsWith, Stack.popAll_dead]
  rfl

/-- The body of a function ends as a block does. -/
theorem body_of_endsWith {v : Context} {code : List Instr} {s : Stack}
    (hrun : instrs { v with labels := [v.results] } .empty code = some s)
    (hends : endsWith v.results s) : body v code := by
  rw [body, hrun]
  exact hends

theorem instrs_append (v : Context) (s : Stack) (code rest : List Instr) :
    instrs v s (code ++ rest) = (instrs v s code).bind (instrs v · rest) := by
  induction code generalizing s with
  | nil => rfl
  | cons i code ih =>
    rw [List.cons_append, instrs, instrs]
    cases instr v s i with
    | none => rfl
    | some s' => exact ih s'

/-! ### Code that takes and leaves values

The judgement for expressions and its rules. -/

attribute [local simp] instr instrs

/-- The code takes values of some types and leaves values of others, the last ones on top. -/
def Typed (v : Context) (params : List ValueType) (code : List Instr)
    (results : List ValueType) : Prop :=
  ∀ s : Stack, instrs v (s.pushAll params) code = some (s.pushAll results)

namespace Typed

variable {v : Context} {params results types : List ValueType} {code rest : List Instr}

theorem nil : Typed v params [] params := fun _ => rfl

/-- One piece leaves what the next one takes. -/
theorem append (h : Typed v params code types) (hrest : Typed v types rest results) :
    Typed v params (code ++ rest) results := by
  intro s
  rw [instrs_append, h s]
  exact hrest s

theorem cons {i : Instr} (h : Typed v params [i] types) (hrest : Typed v types rest results) :
    Typed v params (i :: rest) results :=
  h.append hrest

/-- What lies below stays. -/
theorem under (h : Typed v params code results) (below : List ValueType) :
    Typed v (below ++ params) code (below ++ results) := by
  intro s
  rw [Stack.pushAll_append, Stack.pushAll_append]
  exact h (s.pushAll below)

/-- Code that takes nothing puts its values on those that are there. -/
theorem onto (h : Typed v [] code results) (below : List ValueType) :
    Typed v below code (below ++ results) := by
  simpa using h.under below

theorem single {i : Instr}
    (h : ∀ s : Stack, instr v (s.pushAll params) i = some (s.pushAll results)) :
    Typed v params [i] results := by
  intro s
  rw [instrs, h s]
  rfl

/-! ### Instructions

One rule for each. -/

theorem zero (type : ValueType) : Typed v [] [.zero type] [type] := by
  cases type <;> exact single fun _ => rfl

theorem i32Const (w : UInt32) : Typed v [] [.i32Const w] [.i32] :=
  single fun _ => rfl

theorem f32Const (x : Number.Single) : Typed v [] [.f32Const x] [.f32] :=
  single fun _ => rfl

theorem localGet {index : Nat} {type : ValueType} (h : v.locals[index]? = some type) :
    Typed v [] [.localGet index] [type] := by
  refine single fun s => ?_
  rw [instr, h]
  rfl

theorem localSet {index : Nat} {type : ValueType} (h : v.locals[index]? = some type) :
    Typed v [type] [.localSet index] [] := by
  refine single fun s => ?_
  rw [instr, h]
  exact s.pop_push type

theorem localTee {index : Nat} {type : ValueType} (h : v.locals[index]? = some type) :
    Typed v [type] [.localTee index] [type] := by
  refine single fun s => ?_
  simp [h, Stack.pushAll_singleton]

theorem drop (type : ValueType) : Typed v [type] [.drop] [] :=
  single fun _ => rfl

theorem load (h : 0 < v.memories) (type : ValueType) (offset : Nat) :
    Typed v [.i32] [.load type offset] [type] := by
  refine single fun s => ?_
  simp [h, Stack.pushAll_singleton]

theorem store (h : 0 < v.memories) (type : ValueType) (offset : Nat) :
    Typed v [.i32, type] [.store type offset] [] := by
  refine single fun s => ?_
  have hpush : s.pushAll [.i32, type] = (s.push .i32).push type := rfl
  simp [h, hpush, Stack.pushAll_nil]

theorem i32Eqz : Typed v [.i32] [.i32Eqz] [.i32] :=
  single fun _ => rfl

theorem i32Op (op : IntOp) : Typed v [.i32, .i32] [.i32Op op] [.i32] :=
  single fun _ => rfl

theorem f32Neg : Typed v [.f32] [.f32Neg] [.f32] :=
  single fun _ => rfl

/-- A comparison of floats gives an integer, and arithmetic a float. -/
theorem f32Op (op : FloatOp) : Typed v [.f32, .f32] [.f32Op op] [op.result] :=
  single fun _ => rfl

theorem f32ConvertI32S : Typed v [.i32] [.f32ConvertI32S] [.f32] :=
  single fun _ => rfl

/-- A function takes its parameters and leaves its results. -/
theorem call {index : Nat} {type : FuncType} (h : v.functions[index]? = some type) :
    Typed v type.params [.call index] type.results := by
  refine single fun s => ?_
  simp [h]

/-- A choice between two values. -/
theorem choice {type : ValueType} {body alternate : List Instr}
    (hbody : Typed (v.within [type]) [] body [type])
    (halternate : Typed (v.within [type]) [] alternate [type]) :
    Typed v [.i32] [.branch (some type) body (some alternate)] [type] := by
  refine single fun s => ?_
  have hbody : instrs (v.within [type]) .empty body = some (Stack.empty.pushAll [type]) :=
    hbody .empty
  have halternate : instrs (v.within [type]) .empty alternate =
      some (Stack.empty.pushAll [type]) := halternate .empty
  have hends : endsWith [type] (Stack.empty.pushAll [type]) := endsWith_pushAll _ _
  simp [Stack.pushAll_singleton s .i32, hbody, halternate, hends]

end Typed

/-! ### Code of statements

The judgement for statements and its rules. -/

/-- The code begins and ends with an empty stack. -/
def Balanced (v : Context) (code : List Instr) : Prop :=
  ∀ unreached, ∃ unreached', instrs v ⟨[], unreached⟩ code = some ⟨[], unreached'⟩

/-- Code that takes and leaves nothing. -/
theorem Typed.balanced {v : Context} {code : List Instr} (h : Typed v [] code []) :
    Balanced v code :=
  fun unreached => ⟨unreached, h ⟨[], unreached⟩⟩

namespace Balanced

variable {v : Context} {code rest : List Instr}

theorem append (h : Balanced v code) (hrest : Balanced v rest) : Balanced v (code ++ rest) := by
  intro unreached
  obtain ⟨unreached₁, hcode⟩ := h unreached
  rw [instrs_append, hcode]
  exact hrest unreached₁

theorem flatMap {α : Type} {f : α → List Instr} {xs : List α}
    (h : ∀ x ∈ xs, Balanced v (f x)) : Balanced v (xs.flatMap f) := by
  induction xs with
  | nil => exact Typed.balanced .nil
  | cons x xs ih =>
    rw [List.forall_mem_cons] at h
    exact h.1.append (ih h.2)

/-- A block of statements leaves nothing. -/
theorem endsWith_nil (h : Balanced v code) :
    ∃ s, instrs v .empty code = some s ∧ endsWith [] s := by
  obtain ⟨unreached, hcode⟩ := h false
  exact ⟨_, hcode, rfl⟩

/-- A return ends with code that is never reached. -/
theorem ret (h : Typed v [] code v.results) : Balanced v (code ++ [.ret]) := by
  intro unreached
  have hcode : instrs v ⟨[], unreached⟩ code = some (Stack.pushAll v.results ⟨[], unreached⟩) :=
    h ⟨[], unreached⟩
  refine ⟨true, ?_⟩
  rw [instrs_append, hcode]
  simp [Stack.dead]

/-- A conditional whose body begins and ends with an empty stack does so too. -/
theorem branch (h : Typed v [] code [.i32]) {body : List Instr}
    (hbody : Balanced (v.within []) body) : Balanced v (code ++ [.branch none body none]) := by
  obtain ⟨s, hrun, hends⟩ := hbody.endsWith_nil
  refine (h.append (Typed.single fun s => ?_)).balanced
  simp [Stack.pushAll_singleton, Stack.pushAll_nil, hrun, hends]

theorem choice (h : Typed v [] code [.i32]) {body alternate : List Instr}
    (hbody : Balanced (v.within []) body) (halternate : Balanced (v.within []) alternate) :
    Balanced v (code ++ [.branch none body (some alternate)]) := by
  obtain ⟨s, hrun, hends⟩ := hbody.endsWith_nil
  obtain ⟨s', hrun', hends'⟩ := halternate.endsWith_nil
  refine (h.append (Typed.single fun s => ?_)).balanced
  simp [Stack.pushAll_singleton, Stack.pushAll_nil, hrun, hends, hrun', hends']

/-- The jumps of a loop go to its beginning and behind the block around it. -/
theorem loop {body : List Instr} (h : Typed ((v.within []).within []) [] code [.i32])
    (hbody : Balanced ((v.within []).within []) body) :
    Balanced v (Lowering.loopCode code body) := by
  -- the condition is taken off the stack before the loop is left or goes on
  have hexit : Typed ((v.within []).within []) [.i32] [.i32Eqz, .brIf 1] [] :=
    .cons .i32Eqz (.single fun s => by simp [Stack.pushAll_singleton, Stack.popAll, Context.within])
  -- behind the branch back nothing is reached
  have hagain : instrs ((v.within []).within []) .empty
      (code ++ [.i32Eqz, .brIf 1] ++ body ++ [.br 0]) = some .dead := by
    obtain ⟨unreached, hrun⟩ := ((h.append hexit).balanced.append hbody) false
    rw [instrs_append, Stack.empty, hrun]
    rfl
  refine (Typed.single fun s => ?_).balanced
  have hends := endsWith_dead []
  have hends' : endsWith [] .empty := rfl
  have hloop : instr (v.within []) .empty
      (.loop none (code ++ [.i32Eqz, .brIf 1] ++ body ++ [.br 0])) = some .empty := by
    rw [instr, hagain]
    simp [hends, Stack.pushAll_nil]
  rw [instr, instrs, Option.toList, hloop]
  simp [hends', Stack.pushAll_nil]

end Balanced

/-! ### Locals side by side

The slots of a variable, and the sequences of instructions over them. -/

/-- The locals from some number on have these types. -/
def HasLocals (v : Context) (start : Nat) (types : List ValueType) : Prop :=
  ∀ k type, types[k]? = some type → v.locals[start + k]? = some type

section Slots

open Lowering

variable {v : Context} {start : Nat} {types : List ValueType}

theorem HasLocals.drop {before : List ValueType} (h : HasLocals v start (before ++ types)) :
    HasLocals v (start + before.length) types := by
  intro k type hk
  have hindex : (before ++ types)[before.length + k]? = some type := by
    rw [List.getElem?_append_right (Nat.le_add_right ..), Nat.add_sub_cancel_left]
    exact hk
  rw [Nat.add_assoc]
  exact h _ _ hindex

theorem HasLocals.mono {more : List ValueType} (h : HasLocals v start more)
    (hbegins : types <+: more) : HasLocals v start types := by
  obtain ⟨rest, rfl⟩ := hbegins
  intro k type hk
  have hlt : k < types.length := (List.getElem?_eq_some_iff.mp hk).1
  exact h k type (by rw [List.getElem?_append_left hlt, hk])

/-- Values are pushed in the order of the slots. -/
theorem typed_getSlots (h : HasLocals v start types) :
    Typed v [] (getSlots start types.length) types := by
  induction types using List.reverseRecOn with
  | nil => exact .nil
  | append_singleton types type ih =>
    have hlast : v.locals[start + types.length]? = some type := h _ _ (by simp)
    have hcode : getSlots start (types ++ [type]).length =
        getSlots start types.length ++ [.localGet (start + types.length)] := by
      simp [getSlots, List.range_succ]
    rw [hcode]
    exact (ih (h.mono (List.prefix_append _ _))).append ((Typed.localGet hlast).onto types)

/-- Values are taken off in reverse, the last slot first. -/
theorem typed_setSlots (h : HasLocals v start types) :
    Typed v types (setSlots start types.length) [] := by
  induction types using List.reverseRecOn with
  | nil => exact .nil
  | append_singleton types type ih =>
    have hlast : v.locals[start + types.length]? = some type := h _ _ (by simp)
    have hcode : setSlots start (types ++ [type]).length =
        .localSet (start + types.length) :: setSlots start types.length := by
      simp [setSlots, List.range_succ]
    rw [hcode]
    have hset := (Typed.localSet hlast).under types
    rw [List.append_nil] at hset
    exact hset.cons (ih (h.mono (List.prefix_append _ _)))

/-- Values of any types can be dropped. -/
theorem typed_drops (types : List ValueType) :
    Typed v types (List.replicate types.length .drop) [] := by
  induction types using List.reverseRecOn with
  | nil => exact .nil
  | append_singleton types type ih =>
    rw [List.length_append, List.length_singleton, List.replicate_succ]
    have hdrop := (Typed.drop (v := v) type).under types
    rw [List.append_nil] at hdrop
    exact hdrop.cons ih

/-- Zeros are pushed and written, slot by slot. -/
theorem typed_zeroSlots {var : Variable} (h : HasLocals v var.slot var.type.machineTypes) :
    Typed v [] (zeroSlots var) [] := by
  unfold zeroSlots
  generalize var.type.machineTypes = types at h
  induction types using List.reverseRecOn with
  | nil => exact .nil
  | append_singleton types type ih =>
    have hlast : v.locals[var.slot + types.length]? = some type := h _ _ (by simp)
    rw [List.zipIdx_append, List.flatMap_append]
    refine (ih (h.mono (List.prefix_append _ _))).append ?_
    simp only [List.zipIdx_singleton, Nat.zero_add, List.flatMap_cons, List.flatMap_nil,
      List.append_nil]
    exact (Typed.zero type).cons (Typed.localSet hlast)

/-- Values are read from some slots and written to others. -/
theorem typed_copySlots {target : Nat} (h : HasLocals v start types)
    (htarget : HasLocals v target types) :
    Typed v [] (copySlots start target types.length) [] := by
  induction types using List.reverseRecOn with
  | nil => exact .nil
  | append_singleton types type ih =>
    have hlast : v.locals[start + types.length]? = some type := h _ _ (by simp)
    have hlast' : v.locals[target + types.length]? = some type := htarget _ _ (by simp)
    rw [List.length_append, List.length_singleton, copySlots, List.range_succ,
      List.flatMap_append]
    refine (ih (h.mono (List.prefix_append _ _))
      (htarget.mono (List.prefix_append _ _))).append ?_
    exact (Typed.localGet hlast).cons (Typed.localSet hlast')

end Slots

end WasmCompiler.Wasm.Validation
