import WasmCompiler.Proofs.Memory.Allocator
import WasmCompiler.Proofs.Semantics.Source

/-!
# Watching assignments to fields

The same evaluation as in `Source`, except that it stops as soon as a field below a limit is
assigned to. Everything else a program writes goes into blocks that it has just taken from the heap.
So an evaluation that is not stopped is the one of `Source`, and it keeps what lies below the limit
if the heap begins there (`careful_call`).

* `Careful` compares the two evaluations, and `Careful.bind` carries this through a sequence;
* `careful_construct` and `careful_array` are the two ways to take a block, and `careful_store` the
  assignment that is watched;
* `careful_evalExpr` and `careful_execStmt` are the inductions over the tree.
-/

namespace WasmCompiler.Source

open Wasm (Memory Value)
open Wasm.Validation (maxPages)

namespace Watched

/-- Assigns to a variable or to a field, but not to a field below the limit. -/
def execAssignment (limit : Nat) (x : Interpreter) (scopes : Scopes) (value : Expr) :
    Expr → Eval Flow
  | .member _ base name => do
    let b ← evalExpr x scopes base
    let d ← evalExpr x scopes value
    match b.type.field? name with
    | some (i, _) =>
      let address := (← b.word).toNat + i * cellSize
      if address < limit then throw .wrong
      else
        store address d
        return .next scopes
    | none => throw .wrong
  | target => Source.execAssignment x scopes value target

mutual

/-- Executes a statement. -/
def execStmt (limit : Nat) (x : Interpreter) : Stmt → Scopes → Eval Flow
  | .assign _ target value, scopes => execAssignment limit x scopes value target
  | .conditional _ condition body none, scopes => do
    let d ← evalExpr x scopes condition
    if (← d.word) = 0 then return .next scopes
    else inScope (execStmts limit x body) scopes
  | .conditional _ condition body (some alternate), scopes => do
    let d ← evalExpr x scopes condition
    if (← d.word) = 0 then execStmt limit x alternate scopes
    else inScope (execStmts limit x body) scopes
  | .whileLoop _ condition body, scopes =>
    repeatWhile (evalExpr x · condition) (inScope (execStmts limit x body)) x.fuel scopes
  | .block _ body, scopes => inScope (execStmts limit x body) scopes
  -- no other statement has statements or assignments in it
  | stmt, scopes => Source.execStmt x stmt scopes

/-- Executes statements in order, until one returns. -/
def execStmts (limit : Nat) (x : Interpreter) : List Stmt → Scopes → Eval Flow
  | [], scopes => return .next scopes
  | s :: ss, scopes => do
    let flow ← execStmt limit x s scopes
    flow.andThen (execStmts limit x ss)

end

/-- Calls a function of the host or of the program, or the constructor of a struct. -/
def call (limit : Nat) (s : Setting) : (fuel : Nat) → String → List Datum → Eval Datum
  | 0, _, _ => throw .endless
  | fuel + 1, callee, args =>
    if callee = printName then printCall s .i32 args
    else if callee = printStringName then printCall s .string args
    else
      match s.function? callee, s.symbols.function? callee, s.symbols.struct? callee with
      | some (header, body), some signature, _ => do
        let scope ← parameterScope (header.params.zip signature.params) args []
        let flow ← execStmts limit ⟨s, fuel, call limit s fuel⟩ body [scope]
        functionResult signature.result flow
      | _, _, some fields => do
        let block ← reserve s fuel (.ofNat (DataType.structSize fields))
        storeAll block 0 args
        return ⟨.struct callee fields, [.i32 block]⟩
      | _, _, _ => throw .wrong

end Watched

/-! ### What is kept

The invariant of the heap and of the bytes below it. -/

/-- The heap lies between a limit and the end of the memory. -/
structure HeapAbove (limit : Nat) (w : World) : Prop where
  limit_le : limit ≤ w.heap.toNat
  heap_le : w.heap.toNat ≤ w.memory.size

/-- What an evaluation keeps. The memory does not shrink; and as long as it has not all pages there
are, the heap stays above the limit and the bytes below the limit stay the same. -/
structure Kept (limit : Nat) (w w' : World) : Prop where
  grows : w.memory.pageCount ≤ w'.memory.pageCount
  pages : w'.memory.pageCount ≤ maxPages
  heap : w'.memory.pageCount < maxPages → HeapAbove limit w → HeapAbove limit w'
  bytes : w'.memory.pageCount < maxPages → HeapAbove limit w →
    ∀ address < limit, w'.memory.byte address = w.memory.byte address

namespace Kept

variable {limit : Nat} {w w₁ w' : World}

theorem refl (h : w.memory.pageCount ≤ maxPages) : Kept limit w w :=
  ⟨Nat.le_refl _, h, fun _ h => h, fun _ _ _ _ => rfl⟩

/-- What each of two evaluations keeps, both keep together. -/
theorem trans (h : Kept limit w w₁) (h' : Kept limit w₁ w') : Kept limit w w' := by
  have hless (hlt : w'.memory.pageCount < maxPages) : w₁.memory.pageCount < maxPages :=
    Nat.lt_of_le_of_lt h'.grows hlt
  refine ⟨Nat.le_trans h.grows h'.grows, h'.pages, ?_, ?_⟩
  · exact fun hlt hheap => h'.heap hlt (h.heap (hless hlt) hheap)
  · intro hlt hheap address haddress
    rw [h'.bytes hlt (h.heap (hless hlt) hheap) address haddress]
    exact h.bytes (hless hlt) hheap address haddress

/-- A change of neither the memory nor the heap. -/
theorem of_same (h : w.memory.pageCount ≤ maxPages) (hmemory : w'.memory = w.memory)
    (hheap : w'.heap = w.heap) : Kept limit w w' := by
  obtain ⟨memory, heap, host⟩ := w'
  obtain rfl := hmemory
  obtain rfl := hheap
  exact ⟨Nat.le_refl _, h, fun _ h => ⟨h.limit_le, h.heap_le⟩, fun _ _ _ _ => rfl⟩

/-- A write at or above the limit. -/
theorem of_setWord (h : w.memory.pageCount ≤ maxPages) {address : Nat} {word : UInt32}
    (hin : address + 4 ≤ w.memory.size) (hlimit : limit ≤ address) :
    Kept limit w { w with memory := w.memory.setWord address word } := by
  have hpages : (w.memory.setWord address word).pageCount = w.memory.pageCount :=
    Memory.pageCount_setWord _ _ _
  refine ⟨Nat.le_of_eq hpages.symm, ?_, fun _ h => ⟨h.limit_le, ?_⟩, fun _ _ other hother => ?_⟩
  · rw [hpages]
    exact h
  · rw [Memory.size_setWord]
    exact h.heap_le
  · exact Memory.byte_setWord_of_disjoint word hin (.inl (by omega))

/-- Where the memory has all pages, or the heap was not above the limit, only the size matters. -/
theorem of_imp (hgrows : w.memory.pageCount ≤ w'.memory.pageCount)
    (hpages : w'.memory.pageCount ≤ maxPages)
    (h : w'.memory.pageCount < maxPages → HeapAbove limit w → Kept limit w w') :
    Kept limit w w' :=
  ⟨hgrows, hpages, fun hlt hheap => (h hlt hheap).heap hlt hheap,
    fun hlt hheap => (h hlt hheap).bytes hlt hheap⟩

/-- A new block that ends below the last address. -/
theorem of_grown {size : UInt32} {memory : Memory} (h : Grown w size memory)
    (hless : memory.pageCount < maxPages)
    (hend : w.heap.toNat + size.toNat < addressSpace) :
    Kept limit w ⟨memory, w.heap + size, w.host⟩ := by
  have htop := UInt32.le_iff_toNat_le.mp h.top_le
  rw [byteCount_toNat h.pageCount_le, toNat_top] at htop
  refine ⟨h.grows.pageCount_le, h.pageCount_le, fun _ hheap => ?_, fun _ _ address _ => ?_⟩
  · have hlimit := hheap.limit_le
    -- the heap did not wrap around
    have hheap' : (w.heap + size).toNat = w.heap.toNat + size.toNat := by
      rw [toNat_top, Nat.mod_eq_of_lt hend]
    refine ⟨?_, ?_⟩
    · show limit ≤ (w.heap + size).toNat
      omega
    · show (w.heap + size).toNat ≤ memory.size
      simp only [Memory.size_eq, maxPages, addressSpace] at *
      omega
  · exact h.grows.byte_eq address

end Kept

/-! ### Evaluations that are careful

Operations that do not touch memory, and sequences of them. -/

section Careful

variable {α β : Type} {limit : Nat}

/-- A watched evaluation is stopped, or it is the evaluation itself and keeps what it should. -/
def Careful (limit : Nat) (m m' : Eval α) : Prop :=
  ∀ w : World, w.memory.pageCount ≤ maxPages →
    m w = .error .wrong ∨ m w = m' w ∧ ∀ a w', m w = .ok (a, w') → Kept limit w w'

/-- An evaluation that changes neither the memory nor the heap. -/
def Still (m : Eval α) : Prop :=
  ∀ w a w', m w = .ok (a, w') → w'.memory = w.memory ∧ w'.heap = w.heap

/-- What changes neither memory nor heap is careful. -/
theorem Still.careful {m : Eval α} (h : Still m) : Careful limit m m := by
  intro w hpages
  refine .inr ⟨rfl, fun a w' hrun => ?_⟩
  obtain ⟨hmemory, hheap⟩ := h w a w' hrun
  exact .of_same hpages hmemory hheap

theorem still_pure (a : α) : Still (pure a : Eval α) := by
  intro w b w' h
  obtain ⟨-, rfl⟩ := Prod.mk.inj (Except.ok.inj h)
  exact ⟨rfl, rfl⟩

theorem still_throw (e : Stop) : Still (throw e : Eval α) := by
  intro w b w' h
  cases h

theorem Careful.pure (a : α) : Careful limit (pure a : Eval α) (Pure.pure a) :=
  (still_pure a).careful

theorem Careful.throw (e : Stop) : Careful limit (throw e : Eval α) (MonadExcept.throw e) :=
  (still_throw e).careful

/-- One evaluation after another. -/
theorem Careful.bind {m m' : Eval α} {f f' : α → Eval β} (hm : Careful limit m m')
    (hf : ∀ a, Careful limit (f a) (f' a)) : Careful limit (m >>= f) (m' >>= f') := by
  intro w hpages
  rcases hm w hpages with hwrong | ⟨heq, hkept⟩
  · exact .inl (bind_of_error hwrong)
  cases hrun : m w with
  | error e =>
    rw [bind_of_error hrun, bind_of_error (heq ▸ hrun)]
    exact .inr ⟨rfl, fun _ _ h => by cases h⟩
  | ok result =>
    obtain ⟨a, w₁⟩ := result
    have hfirst := hkept a w₁ hrun
    rw [bind_of_ok hrun, bind_of_ok (heq ▸ hrun)]
    rcases hf a w₁ hfirst.pages with hwrong | ⟨heq', hkept'⟩
    · exact .inl hwrong
    · exact .inr ⟨heq', fun b w' h => hfirst.trans (hkept' b w' h)⟩

theorem Careful.ite {c : Prop} [Decidable c] {m₁ m₁' m₂ m₂' : Eval α}
    (h₁ : Careful limit m₁ m₁') (h₂ : Careful limit m₂ m₂') :
    Careful limit (if c then m₁ else m₂) (if c then m₁' else m₂') := by
  split
  · exact h₁
  · exact h₂

theorem still_word (d : Datum) : Still d.word := by
  unfold Datum.word
  split
  · exact still_pure _
  · exact still_throw _

theorem still_negate (d : Datum) : Still d.negate := by
  unfold Datum.negate
  split
  · exact still_pure _
  · exact still_pure _
  · exact still_throw _

theorem still_operate (op : BinaryOp) (l r : Datum) : Still (operate op l r) := by
  unfold operate
  split
  · intro w d w' h
    obtain ⟨_, _, hpair⟩ := Except.map_eq_ok_iff.mp h
    obtain ⟨-, rfl⟩ := Prod.mk.inj hpair
    exact ⟨rfl, rfl⟩
  · exact still_throw _

theorem still_load (type : DataType) (address : Nat) : Still (load type address) := by
  intro w d w' h
  unfold load at h
  split at h
  · obtain ⟨-, rfl⟩ := Prod.mk.inj (Except.ok.inj h)
    exact ⟨rfl, rfl⟩
  · cases h

theorem still_element (elements : List DataType) (values : List Value) (i : Nat) :
    Still (element elements values i) := by
  unfold element
  split
  · exact still_pure _
  · exact still_throw _

theorem still_print (s : Setting) (type : DataType) (word : UInt32) :
    Still (print s type word) := by
  intro w u w' h
  obtain ⟨-, rfl⟩ := Prod.mk.inj (Except.ok.inj h)
  exact ⟨rfl, rfl⟩

theorem still_bind (value : Option (List Value)) (bindings : List Binding) (scopes : Scopes) :
    Still (bind value bindings scopes) := by
  induction bindings generalizing scopes with
  | nil =>
    unfold bind
    exact still_pure _
  | cons b bs ih =>
    cases scopes with
    | nil =>
      unfold bind
      exact still_throw _
    | cons scope outer =>
      unfold bind
      split
      · exact ih _
      · exact still_throw _

theorem still_parameterScope (params : List (Field × DataType)) (args : List Datum)
    (scope : List (String × Datum)) : Still (parameterScope params args scope) := by
  induction params generalizing args scope with
  | nil =>
    cases args with
    | nil => exact still_pure _
    | cons _ _ => exact still_throw _
  | cons param params ih =>
    cases args with
    | nil => exact still_throw _
    | cons d ds => exact ih ds _

theorem still_functionResult (result : DataType) (flow : Flow) :
    Still (functionResult result flow) := by
  unfold functionResult
  split
  · exact still_pure _
  · split
    · exact still_pure _
    · exact still_throw _

/-! ### Blocks

New blocks for structs and arrays, filled at once. -/

/-- What a write does: it is inside the memory, and nothing else changes. -/
theorem storeWord_cases {address : Nat} {word : UInt32} {w w' : World} {u : Unit}
    (h : storeWord address word w = .ok (u, w')) :
    address + 4 ≤ w.memory.size ∧ w' = { w with memory := w.memory.setWord address word } := by
  unfold storeWord at h
  split at h
  · rename_i memory hmemory
    obtain ⟨hin, rfl⟩ := Memory.setWord?_eq_some_iff.mp hmemory
    obtain ⟨-, rfl⟩ := Prod.mk.inj (Except.ok.inj h)
    exact ⟨hin, rfl⟩
  · cases h

theorem store_cases {address : Nat} {d : Datum} {w w' : World} {u : Unit}
    (h : store address d w = .ok (u, w')) :
    ∃ word, address + 4 ≤ w.memory.size ∧
      w' = { w with memory := w.memory.setWord address word } := by
  unfold store at h
  split at h
  · exact ⟨_, storeWord_cases h⟩
  · cases h

/-- What is left by writing into a block and by what is evaluated in between: the memory has not
shrunk, and if the block does not begin below the limit then everything is kept that should be. -/
structure Filled (limit block : Nat) (w w' : World) : Prop where
  grows : w.memory.pageCount ≤ w'.memory.pageCount
  pages : w'.memory.pageCount ≤ maxPages
  kept : limit ≤ block → Kept limit w w'

theorem Filled.refl {block : Nat} {w : World} (h : w.memory.pageCount ≤ maxPages) :
    Filled limit block w w :=
  ⟨Nat.le_refl _, h, fun _ => .refl h⟩

theorem Filled.trans {block : Nat} {w w₁ w' : World} (h : Filled limit block w w₁)
    (h' : Filled limit block w₁ w') : Filled limit block w w' :=
  ⟨Nat.le_trans h.grows h'.grows, h'.pages, fun hle => (h.kept hle).trans (h'.kept hle)⟩

/-- An evaluation that keeps what it should may stand among the writes into a block. -/
theorem Kept.filled {block : Nat} {w w' : World} (h : Kept limit w w') :
    Filled limit block w w' :=
  ⟨h.grows, h.pages, fun _ => h⟩

/-- A write at or behind the beginning of the block. -/
theorem filled_setWord {block address : Nat} {w : World} (word : UInt32)
    (h : w.memory.pageCount ≤ maxPages) (hin : address + 4 ≤ w.memory.size)
    (hblock : block ≤ address) :
    Filled limit block w { w with memory := w.memory.setWord address word } := by
  have hpages : (w.memory.setWord address word).pageCount = w.memory.pageCount :=
    Memory.pageCount_setWord _ _ _
  refine ⟨Nat.le_of_eq hpages.symm, Nat.le_trans (Nat.le_of_eq hpages) h, fun hle => ?_⟩
  exact .of_setWord h hin (Nat.le_trans hle hblock)

/-- By induction over the values. -/
theorem filled_storeAll {block : UInt32} {cell : Nat} {args : List Datum} {w w' : World} {u : Unit}
    (h : storeAll block cell args w = .ok (u, w')) (hpages : w.memory.pageCount ≤ maxPages) :
    Filled limit block.toNat w w' := by
  induction args generalizing cell w with
  | nil =>
    obtain ⟨-, rfl⟩ := Prod.mk.inj (Except.ok.inj h)
    exact .refl hpages
  | cons d ds ih =>
    obtain ⟨⟨_, w₁⟩, hstore, hrest⟩ := Except.bind_eq_ok_iff.mp h
    obtain ⟨word, hin, rfl⟩ := store_cases hstore
    have hfirst : Filled limit block.toNat w _ :=
      filled_setWord word hpages hin (Nat.le_add_right _ _)
    exact hfirst.trans (ih hrest hfirst.pages)

/-- A new block for a struct. It is shorter than a page, so its end does not wrap around as long as
the memory has not all pages. -/
theorem careful_construct {s : Setting} (hgrants : ∀ pages, s.grantsPages pages → pages ≤ maxPages)
    {size : Nat} (hsize : size < Wasm.pageSize) (fuel : Nat) (args : List Datum)
    (result : UInt32 → Datum) :
    let construct : Eval Datum := do
      let block ← reserve s fuel (.ofNat size)
      storeAll block 0 args
      return result block
    Careful limit construct construct := by
  intro construct w hpages
  refine .inr ⟨rfl, fun d w' h => ?_⟩
  obtain ⟨⟨block, w₁⟩, hreserve, h⟩ := Except.bind_eq_ok_iff.mp h
  obtain ⟨⟨_, w₂⟩, hstore, h⟩ := Except.bind_eq_ok_iff.mp h
  obtain ⟨-, rfl⟩ := Prod.mk.inj (Except.ok.inj h)
  -- the run ended with a value, so the block was reserved
  rcases reserve_cases hgrants (.ofNat size) hpages fuel with ⟨hcase, -⟩ | ⟨hcase, -⟩ | hcase
  · cases hcase.symm.trans hreserve
  · cases hcase.symm.trans hreserve
  obtain ⟨memory, hcase, hgrown⟩ := hcase
  obtain ⟨rfl, rfl⟩ := Prod.mk.inj (Except.ok.inj (hcase.symm.trans hreserve))
  have hfilled : Filled limit w.heap.toNat _ w₂ := filled_storeAll hstore hgrown.pageCount_le
  refine .of_imp (Nat.le_trans hgrown.grows.pageCount_le hfilled.grows) hfilled.pages ?_
  intro hlt hheap
  -- memory that has pages left had them when the block was reserved, so the heap did not wrap
  have hless : memory.pageCount < maxPages := Nat.lt_of_le_of_lt hfilled.grows hlt
  have htoNat : (UInt32.ofNat size).toNat = size :=
    UInt32.toNat_ofNat_of_lt' (Nat.lt_trans hsize (by decide))
  have hend : w.heap.toNat + (UInt32.ofNat size).toNat < addressSpace := by
    have hle := hheap.heap_le
    have hmore := hgrown.grows.pageCount_le
    rw [htoNat]
    simp only [Memory.size_eq, maxPages, addressSpace, Wasm.pageSize] at *
    omega
  exact (Kept.of_grown hgrown hless hend).trans (hfilled.kept hheap.limit_le)

/-- Evaluations of items that go into the cells of a block, from one of them on. -/
def CarefulItems (limit block cell count : Nat) (m m' : Eval (List DataType)) : Prop :=
  ∀ w : World, w.memory.pageCount ≤ maxPages →
    m w = .error .wrong ∨ m w = m' w ∧ ∀ types w', m w = .ok (types, w') →
      Filled limit block w w' ∧ (block + cell * cellSize ≤ w.memory.size →
        block + (cell + count) * cellSize ≤ w'.memory.size)

/-- Where the first step fails, there is no difference between what follows it. -/
theorem careful_of_error {m : Eval α} {f f' : α → Eval β} {w₀ w : World} {e : Stop}
    (h : m w = .error e) :
    (m >>= f) w = .error .wrong ∨ (m >>= f) w = (m >>= f') w ∧
      ∀ b w', (m >>= f) w = .ok (b, w') → Kept limit w₀ w' := by
  rw [bind_of_error h, bind_of_error h]
  exact .inr ⟨rfl, fun _ _ h => by cases h⟩

/-- A new block for an array. All its cells are written, so that it ends inside the memory, and
below the last address as long as the memory has not all pages. -/
theorem careful_array {s : Setting} (hgrants : ∀ pages, s.grantsPages pages → pages ≤ maxPages)
    (fuel count : Nat) {items items' : UInt32 → Eval (List DataType)}
    (hitems : ∀ block, CarefulItems limit block.toNat 1 count (items block) (items' block))
    (result : UInt32 → List DataType → Datum) :
    Careful limit
      (do
        let block ← reserve s fuel (.ofNat (cellSize * (count + 1)))
        storeWord block.toNat (.ofNat count)
        let types ← items block
        return result block types)
      (do
        let block ← reserve s fuel (.ofNat (cellSize * (count + 1)))
        storeWord block.toNat (.ofNat count)
        let types ← items' block
        return result block types) := by
  intro w hpages
  let size := UInt32.ofNat (cellSize * (count + 1))
  -- a block that is not reserved stops both runs alike
  rcases reserve_cases hgrants size hpages fuel with ⟨hcase, -⟩ | ⟨hcase, -⟩ | hcase
  · exact careful_of_error hcase
  · exact careful_of_error hcase
  obtain ⟨memory, hcase, hgrown⟩ := hcase
  rw [bind_of_ok hcase, bind_of_ok hcase]
  let w₁ : World := ⟨memory, w.heap + size, w.host⟩
  cases hstore : storeWord w.heap.toNat (.ofNat count) w₁ with
  | error e => exact careful_of_error hstore
  | ok stored =>
    obtain ⟨_, w₂⟩ := stored
    rw [bind_of_ok hstore, bind_of_ok hstore]
    obtain ⟨hin, rfl⟩ := storeWord_cases hstore
    have hfirst : Filled limit w.heap.toNat w₁ _ :=
      filled_setWord (.ofNat count) hgrown.pageCount_le hin (Nat.le_refl _)
    rcases hitems w.heap _ hfirst.pages with hwrong | ⟨heq, hfilled⟩
    · exact .inl (bind_of_error hwrong)
    refine .inr ⟨?_, fun d w' h => ?_⟩
    · show (items w.heap _).bind _ = (items' w.heap _).bind _
      rw [heq]
    obtain ⟨⟨types, w₃⟩, hrun, h⟩ := Except.bind_eq_ok_iff.mp h
    obtain ⟨-, rfl⟩ := Prod.mk.inj (Except.ok.inj h)
    obtain ⟨hrest, hreach⟩ := hfilled types w₃ hrun
    have hall : Filled limit w.heap.toNat w₁ w₃ := hfirst.trans hrest
    -- the last cell was written, so the block ends inside the memory
    have hinside : w.heap.toNat + (1 + count) * cellSize ≤ w₃.memory.size := by
      refine hreach ?_
      rw [Memory.size_setWord]
      exact hin
    refine .of_imp (Nat.le_trans hgrown.grows.pageCount_le hall.grows) hall.pages ?_
    intro hlt hheap
    have hless : memory.pageCount < maxPages := Nat.lt_of_le_of_lt hall.grows hlt
    -- the size of a block inside such a memory does not wrap either
    have htoNat : size.toNat = cellSize * (count + 1) := by
      refine UInt32.toNat_ofNat_of_lt' ?_
      simp only [Memory.size_eq, maxPages, cellSize, UInt32.size] at *
      omega
    have hend : w.heap.toNat + size.toNat < addressSpace := by
      rw [htoNat]
      simp only [Memory.size_eq, maxPages, cellSize, addressSpace] at *
      omega
    exact (Kept.of_grown hgrown hless hend).trans (hall.kept hheap.limit_le)

end Careful

/-! ### Expressions

An expression writes into new blocks only. -/

section Expr

variable {limit fuel : Nat} {s : Setting} {c c' : String → List Datum → Eval Datum}

mutual

/-- By induction over the expression. -/
theorem careful_evalExpr (hgrants : ∀ pages, s.grantsPages pages → pages ≤ maxPages)
    (hcall : ∀ callee args, Careful limit (c callee args) (c' callee args)) (scopes : Scopes) :
    ∀ e : Expr, Careful limit (evalExpr ⟨s, fuel, c⟩ scopes e) (evalExpr ⟨s, fuel, c'⟩ scopes e)
  | .integer .. | .float .. => by
    unfold evalExpr
    exact .pure _
  | .string _ text => by
    unfold evalExpr
    dsimp only
    split
    · exact .pure _
    · exact .throw _
  | .identifier _ name => by
    unfold evalExpr
    split
    · exact .pure _
    · exact .throw _
  | .unary _ .not _ => by
    unfold evalExpr
    exact .throw _
  | .unary _ .negate operand => by
    unfold evalExpr
    exact .bind (careful_evalExpr hgrants hcall scopes operand) fun d => (still_negate d).careful
  | .binary _ .and left right => by
    unfold evalExpr
    refine .bind (careful_evalExpr hgrants hcall scopes left) fun l => ?_
    refine .bind (still_word l).careful fun _ => .ite (.pure _) ?_
    refine .bind (careful_evalExpr hgrants hcall scopes right) fun r => ?_
    exact .bind (still_word r).careful fun _ => .pure _
  | .binary _ .or left right => by
    unfold evalExpr
    refine .bind (careful_evalExpr hgrants hcall scopes left) fun l => ?_
    refine .bind (still_word l).careful fun _ => .ite ?_ (.pure _)
    refine .bind (careful_evalExpr hgrants hcall scopes right) fun r => ?_
    exact .bind (still_word r).careful fun _ => .pure _
  | .call _ callee args => by
    unfold evalExpr
    exact .bind (careful_evalAll hgrants hcall scopes args) fun ds => hcall callee ds
  | .member _ base name => by
    unfold evalExpr
    refine .bind (careful_evalExpr hgrants hcall scopes base) fun b => ?_
    split
    · exact .bind (still_word b).careful fun _ => (still_load _ _).careful
    · exact .throw _
  | .index _ base index => by
    unfold evalExpr
    refine .bind (careful_evalExpr hgrants hcall scopes base) fun b => ?_
    split
    · refine .bind (careful_evalExpr hgrants hcall scopes index) fun i => ?_
      refine .bind (still_word b).careful fun _ => ?_
      exact .bind (still_word i).careful fun _ => (still_load _ _).careful
    · split
      · exact (still_element _ _ _).careful
      · exact .throw _
    · exact .throw _
  | .array _ items => by
    unfold evalExpr
    exact careful_array hgrants fuel items.length
      (fun block => careful_evalItems hgrants hcall scopes block 1 items) _
  | .tuple _ items => by
    unfold evalExpr
    exact .bind (careful_evalAll hgrants hcall scopes items) fun _ => .pure _
  | .binary _ .add left right | .binary _ .sub left right | .binary _ .mul left right
  | .binary _ .div left right | .binary _ .eq left right | .binary _ .ne left right
  | .binary _ .lt left right | .binary _ .gt left right | .binary _ .le left right
  | .binary _ .ge left right => by
    unfold evalExpr
    refine .bind (careful_evalExpr hgrants hcall scopes left) fun l => ?_
    refine .bind (careful_evalExpr hgrants hcall scopes right) fun r => ?_
    exact (still_operate _ l r).careful

theorem careful_evalAll (hgrants : ∀ pages, s.grantsPages pages → pages ≤ maxPages)
    (hcall : ∀ callee args, Careful limit (c callee args) (c' callee args)) (scopes : Scopes) :
    ∀ es : List Expr,
      Careful limit (evalAll ⟨s, fuel, c⟩ scopes es) (evalAll ⟨s, fuel, c'⟩ scopes es)
  | [] => by
    unfold evalAll
    exact .pure _
  | e :: es => by
    unfold evalAll
    refine .bind (careful_evalExpr hgrants hcall scopes e) fun d => ?_
    exact .bind (careful_evalAll hgrants hcall scopes es) fun _ => .pure _

theorem careful_evalItems (hgrants : ∀ pages, s.grantsPages pages → pages ≤ maxPages)
    (hcall : ∀ callee args, Careful limit (c callee args) (c' callee args)) (scopes : Scopes)
    (block : UInt32) : ∀ (cell : Nat) (es : List Expr),
      CarefulItems limit block.toNat cell es.length (evalItems ⟨s, fuel, c⟩ scopes block cell es)
        (evalItems ⟨s, fuel, c'⟩ scopes block cell es)
  | cell, [] => by
    unfold evalItems
    intro w hpages
    refine .inr ⟨rfl, fun types w' h => ?_⟩
    obtain ⟨-, rfl⟩ := Prod.mk.inj (Except.ok.inj h)
    exact ⟨.refl hpages, fun h => h⟩
  | cell, e :: es => by
    unfold evalItems
    intro w hpages
    rcases careful_evalExpr hgrants hcall scopes e w hpages with hwrong | ⟨heq, hkept⟩
    · exact .inl (bind_of_error hwrong)
    cases hrun : evalExpr ⟨s, fuel, c⟩ scopes e w with
    | error e =>
      rw [bind_of_error hrun, bind_of_error (heq ▸ hrun)]
      exact .inr ⟨rfl, fun _ _ h => by cases h⟩
    | ok evaluated =>
      obtain ⟨d, w₁⟩ := evaluated
      have hfirst : Filled limit block.toNat w w₁ := (hkept d w₁ hrun).filled
      have hrun' : evalExpr ⟨s, fuel, c'⟩ scopes e w = .ok (d, w₁) := heq ▸ hrun
      rw [bind_of_ok hrun, bind_of_ok hrun']
      cases hstore : store (block.toNat + cell * cellSize) d w₁ with
      | error e =>
        rw [bind_of_error hstore, bind_of_error hstore]
        exact .inr ⟨rfl, fun _ _ h => by cases h⟩
      | ok stored =>
        obtain ⟨_, w₂⟩ := stored
        rw [bind_of_ok hstore, bind_of_ok hstore]
        obtain ⟨word, hin, rfl⟩ := store_cases hstore
        -- the cell lies in the block, behind the reserved bytes
        have hsecond : Filled limit block.toNat w₁ _ :=
          filled_setWord word hfirst.pages hin (Nat.le_add_right _ _)
        rcases careful_evalItems hgrants hcall scopes block (cell + 1) es _ hsecond.pages with
          hwrong | ⟨heq', hfilled⟩
        · exact .inl (bind_of_error hwrong)
        refine .inr ⟨?_, fun types w' h => ?_⟩
        · show (evalItems ⟨s, fuel, c⟩ scopes block (cell + 1) es _).bind _ =
            (evalItems ⟨s, fuel, c'⟩ scopes block (cell + 1) es _).bind _
          rw [heq']
        obtain ⟨⟨types', w₃⟩, hrest, h⟩ := Except.bind_eq_ok_iff.mp h
        obtain ⟨-, rfl⟩ := Prod.mk.inj (Except.ok.inj h)
        obtain ⟨hthird, hreach⟩ := hfilled types' w₃ hrest
        -- this cell lies inside the memory, and the later ones reach on from it
        refine ⟨(hfirst.trans hsecond).trans hthird, fun _ => ?_⟩
        rw [List.length_cons, ← Nat.add_assoc, Nat.add_right_comm]
        refine hreach ?_
        rw [Memory.size_setWord, Nat.add_mul, ← Nat.add_assoc]
        exact hin

end

end Expr

/-! ### Statements

A statement may assign to a field, which is watched. -/

section Stmt

variable {limit fuel : Nat} {s : Setting} {c c' : String → List Datum → Eval Datum}

/-- A statement that returns ends the evaluation of both. -/
theorem careful_andThen {rest rest' : Scopes → Eval Flow}
    (h : ∀ scopes, Careful limit (rest scopes) (rest' scopes)) (flow : Flow) :
    Careful limit (flow.andThen rest) (flow.andThen rest') := by
  cases flow with
  | next scopes => exact h scopes
  | returned values => exact .pure _

/-- Variables are not in memory. -/
theorem careful_inScope {body body' : Scopes → Eval Flow}
    (h : ∀ scopes, Careful limit (body scopes) (body' scopes)) (scopes : Scopes) :
    Careful limit (inScope body scopes) (inScope body' scopes) :=
  .bind (h _) fun flow => careful_andThen (fun _ => .pure _) flow

/-- By induction on the rounds. -/
theorem careful_repeatWhile {condition condition' : Scopes → Eval Datum}
    {body body' : Scopes → Eval Flow}
    (hcondition : ∀ scopes, Careful limit (condition scopes) (condition' scopes))
    (hbody : ∀ scopes, Careful limit (body scopes) (body' scopes)) (rounds : Nat)
    (scopes : Scopes) :
    Careful limit (repeatWhile condition body rounds scopes)
      (repeatWhile condition' body' rounds scopes) := by
  induction rounds generalizing scopes with
  | zero => exact .throw _
  | succ rounds ih =>
    unfold repeatWhile
    refine .bind (hcondition scopes) fun d => .bind (still_word d).careful fun _ => ?_
    exact .ite (.pure _) (.bind (hbody scopes) fun flow => careful_andThen ih flow)

/-- A write to a field at or above the limit; any other is stopped. -/
theorem careful_store (address : Nat) (d : Datum) (scopes : Scopes) :
    Careful limit
      (if address < limit then throw .wrong
        else do
          store address d
          return .next scopes : Eval Flow)
      (do
        store address d
        return .next scopes) := by
  by_cases hlimit : address < limit
  · rw [if_pos hlimit]
    exact fun w _ => .inl rfl
  · rw [if_neg hlimit]
    refine .bind (fun w hpages => .inr ⟨rfl, fun _ w' h => ?_⟩) fun _ => .pure _
    obtain ⟨word, hin, rfl⟩ := store_cases h
    exact .of_setWord hpages hin (Nat.le_of_not_lt hlimit)

/-- Only an assignment to a field writes to memory. -/
theorem careful_execAssignment (hgrants : ∀ pages, s.grantsPages pages → pages ≤ maxPages)
    (hcall : ∀ callee args, Careful limit (c callee args) (c' callee args)) (scopes : Scopes)
    (value target : Expr) :
    Careful limit (Watched.execAssignment limit ⟨s, fuel, c⟩ scopes value target)
      (execAssignment ⟨s, fuel, c'⟩ scopes value target) := by
  have hexpr (e : Expr) :
      Careful limit (evalExpr ⟨s, fuel, c⟩ scopes e) (evalExpr ⟨s, fuel, c'⟩ scopes e) :=
    careful_evalExpr hgrants hcall scopes e
  cases target with
  | identifier _ name =>
    refine .bind (hexpr value) fun d => ?_
    split
    · exact .pure _
    · exact .throw _
  | member _ base name =>
    refine .bind (hexpr base) fun b => .bind (hexpr value) fun d => ?_
    cases b.type.field? name with
    | none => exact .throw _
    | some field => exact .bind (still_word b).careful fun _ => careful_store _ d scopes
  | _ => exact .throw _

mutual

/-- By induction over the statement. -/
theorem careful_execStmt (hgrants : ∀ pages, s.grantsPages pages → pages ≤ maxPages)
    (hcall : ∀ callee args, Careful limit (c callee args) (c' callee args)) :
    ∀ (stmt : Stmt) (scopes : Scopes),
      Careful limit (Watched.execStmt limit ⟨s, fuel, c⟩ stmt scopes)
        (execStmt ⟨s, fuel, c'⟩ stmt scopes)
  | .declare _ _ bindings none, scopes => by
    unfold Watched.execStmt execStmt
    exact .bind (still_bind _ _ _).careful fun _ => .pure _
  | .declare _ _ bindings (some value), scopes => by
    unfold Watched.execStmt execStmt
    refine .bind (careful_evalExpr hgrants hcall scopes value) fun d => ?_
    exact .bind (still_bind _ _ _).careful fun _ => .pure _
  | .function .., scopes | .struct .., scopes => by
    unfold Watched.execStmt execStmt
    exact .throw _
  | .ret _ none, scopes => by
    unfold Watched.execStmt execStmt
    exact .pure _
  | .ret _ (some value), scopes => by
    unfold Watched.execStmt execStmt
    exact .bind (careful_evalExpr hgrants hcall scopes value) fun _ => .pure _
  | .assign _ target value, scopes => by
    unfold Watched.execStmt execStmt
    exact careful_execAssignment hgrants hcall scopes value target
  | .conditional _ condition body none, scopes => by
    unfold Watched.execStmt execStmt
    refine .bind (careful_evalExpr hgrants hcall scopes condition) fun d => ?_
    refine .bind (still_word d).careful fun _ => .ite (.pure _) ?_
    exact careful_inScope (careful_execStmts hgrants hcall body) scopes
  | .conditional _ condition body (some alternate), scopes => by
    unfold Watched.execStmt execStmt
    refine .bind (careful_evalExpr hgrants hcall scopes condition) fun d => ?_
    refine .bind (still_word d).careful fun _ => .ite ?_ ?_
    · exact careful_execStmt hgrants hcall alternate scopes
    · exact careful_inScope (careful_execStmts hgrants hcall body) scopes
  | .whileLoop _ condition body, scopes => by
    unfold Watched.execStmt execStmt
    refine careful_repeatWhile (fun scopes => ?_) (fun scopes => ?_) fuel scopes
    · exact careful_evalExpr hgrants hcall scopes condition
    · exact careful_inScope (careful_execStmts hgrants hcall body) scopes
  | .print _ value, scopes => by
    unfold Watched.execStmt execStmt
    refine .bind (careful_evalExpr hgrants hcall scopes value) fun d => ?_
    refine .bind (still_word d).careful fun _ => ?_
    exact .bind (still_print _ _ _).careful fun _ => .pure _
  | .expression _ value, scopes => by
    unfold Watched.execStmt execStmt
    exact .bind (careful_evalExpr hgrants hcall scopes value) fun _ => .pure _
  | .block _ body, scopes => by
    unfold Watched.execStmt execStmt
    exact careful_inScope (careful_execStmts hgrants hcall body) scopes

theorem careful_execStmts (hgrants : ∀ pages, s.grantsPages pages → pages ≤ maxPages)
    (hcall : ∀ callee args, Careful limit (c callee args) (c' callee args)) :
    ∀ (stmts : List Stmt) (scopes : Scopes),
      Careful limit (Watched.execStmts limit ⟨s, fuel, c⟩ stmts scopes)
        (execStmts ⟨s, fuel, c'⟩ stmts scopes)
  | [], scopes => by
    unfold Watched.execStmts execStmts
    exact .pure _
  | stmt :: stmts, scopes => by
    unfold Watched.execStmts execStmts
    refine .bind (careful_execStmt hgrants hcall stmt scopes) fun flow => ?_
    exact careful_andThen (careful_execStmts hgrants hcall stmts) flow

end

end Stmt

/-! ### Calls

By induction on the depth of calls. -/

/-- A call of the host writes no memory. -/
theorem careful_printCall {limit : Nat} (s : Setting) (type : DataType) (args : List Datum) :
    Careful limit (printCall s type args) (printCall s type args) := by
  unfold printCall
  split
  · refine .bind (still_word _).careful fun _ => ?_
    exact .bind (still_print _ _ _).careful fun _ => .pure _
  · exact .throw _

/-- A watched call is stopped, or it is the call itself and keeps what it should. -/
theorem careful_call {s : Setting} (hgrants : ∀ pages, s.grantsPages pages → pages ≤ maxPages)
    (hstructs : ∀ name fields, s.symbols.struct? name = some fields →
      DataType.structSize fields < Wasm.pageSize)
    (limit fuel : Nat) (callee : String) (args : List Datum) :
    Careful limit (Watched.call limit s fuel callee args) (call s fuel callee args) := by
  induction fuel generalizing callee args with
  | zero => exact .throw _
  | succ fuel ih =>
    unfold Watched.call call
    refine .ite (careful_printCall _ _ _) (.ite (careful_printCall _ _ _) ?_)
    have hfunction (header : FunctionHeader) (body : List Stmt) (signature : Signature) :
        Careful limit
          (do
            let scope ← parameterScope (header.params.zip signature.params) args []
            let flow ← Watched.execStmts limit ⟨s, fuel, Watched.call limit s fuel⟩ body [scope]
            functionResult signature.result flow)
          (do
            let scope ← parameterScope (header.params.zip signature.params) args []
            let flow ← execStmts ⟨s, fuel, call s fuel⟩ body [scope]
            functionResult signature.result flow) := by
      refine .bind (still_parameterScope _ _ _).careful fun scope => ?_
      refine .bind (careful_execStmts hgrants ih _ _) fun flow => ?_
      exact (still_functionResult _ _).careful
    cases s.function? callee <;> cases s.symbols.function? callee <;>
      cases hstruct : s.symbols.struct? callee
    case some.some.none | some.some.some => exact hfunction _ _ _
    case none.none.none | none.some.none | some.none.none => exact .throw _
    all_goals exact careful_construct hgrants (hstructs callee _ hstruct) fuel args _

end WasmCompiler.Source
