import WasmCompiler.Proofs.Simulation.Functions
import WasmCompiler.Wasm.Validation

/-!
# The blocks of the allocator

The allocator compares the end of the new block, a word, with the size of the memory, also a word.
Both may wrap around: the end of a block that does not fit below the last address, and the size of
a memory that has all pages there are. `Addressable` says for which sizes this does no harm, and
`allocator_meets_contract_iff` that a call does what an allocator should do exactly then. As long as
every block is addressable, the blocks that calls give out lie one after another
(`Allocations.ordered`).

* `Source.reserve_cases` says what taking a block can come to, and `HasAllocator.ends` that a call
  of the allocator comes to the same;
* `Grown.allocated` and `Grown.addressable_of_allocated` are the two directions of the main result.
-/

namespace WasmCompiler

open Lowering
open Source (Setting Stop World)
open Wasm (Environment Machine Memory Place Store Trap Value)
open Wasm.Validation (maxPages)

/-! ### Memory that grows

What stays the same when pages are added. -/

namespace Wasm.Memory

/-- A memory with more pages, in which the bytes are the same. New pages are zero, as the bytes
outside a memory are. -/
structure Extends (m m' : Memory) : Prop where
  pageCount_le : m.pageCount ≤ m'.pageCount
  byte_eq : ∀ address, m'.byte address = m.byte address

theorem Extends.refl (m : Memory) : m.Extends m :=
  ⟨Nat.le_refl _, fun _ => rfl⟩

theorem Extends.trans {m m₁ m' : Memory} (h : m.Extends m₁) (h' : m₁.Extends m') : m.Extends m' :=
  ⟨Nat.le_trans h.pageCount_le h'.pageCount_le,
    fun address => (h'.byte_eq address).trans (h.byte_eq address)⟩

theorem extends_grow (m : Memory) (count : Nat) : m.Extends (m.grow count) := by
  refine ⟨?_, m.byte_grow count⟩
  simp [grow, pageCount]

@[simp] theorem pageCount_grow (m : Memory) (count : Nat) :
    (m.grow count).pageCount = m.pageCount + count := by
  simp [grow, pageCount]

@[simp] theorem pageCount_setWord (m : Memory) (address : Nat) (word : UInt32) :
    (m.setWord address word).pageCount = m.pageCount := by
  simp [setWord, setByte, pageCount]

theorem size_eq (m : Memory) : m.size = m.pageCount * 65536 := rfl

end Wasm.Memory

open Wasm.Memory (size_eq)

/-- The size in bytes as a word: zero if the memory has all pages there are. -/
theorem Source.byteCount_toNat {m : Memory} (h : m.pageCount ≤ maxPages) :
    (byteCount m).toNat = m.size % addressSpace := by
  simp only [maxPages] at h
  have hpages : (UInt32.ofNat m.pageCount).toNat = m.pageCount :=
    UInt32.toNat_ofNat_of_lt' (Nat.lt_of_le_of_lt h (by decide))
  rw [byteCount, UInt32.toNat_shiftLeft, hpages, Nat.shiftLeft_eq]
  rfl

/-! ### Taking a block

The evaluation of the allocator, on the words that it computes with. -/

section Reserve

variable {s : Setting} {w : World}

/-- What asking for pages can come to, if the host never grants more than there are: a trap when
it refuses, the end of the bound while there are pages left to ask for, or room up to the top. -/
theorem Source.makeRoom_cases (hgrants : ∀ pages, s.grantsPages pages → pages ≤ maxPages)
    (top : UInt32) (hpages : w.memory.pageCount ≤ maxPages) (fuel : Nat) :
    makeRoom s top fuel w = .error (.trap .unreachable) ∧ ¬top ≤ byteCount w.memory ∨
      makeRoom s top fuel w = .error .endless ∧ fuel + w.memory.pageCount ≤ maxPages ∨
      ∃ memory, makeRoom s top fuel w = .ok ((), { w with memory }) ∧
        w.memory.Extends memory ∧ memory.pageCount ≤ maxPages ∧ top ≤ byteCount memory ∧
        (top ≤ byteCount w.memory → memory = w.memory) := by
  induction fuel generalizing w with
  | zero => exact .inr (.inl ⟨rfl, by omega⟩)
  | succ fuel ih =>
    unfold makeRoom
    by_cases henough : top ≤ byteCount w.memory
    · rw [if_pos henough]
      exact .inr (.inr ⟨w.memory, rfl, .refl _, hpages, henough, fun _ => rfl⟩)
    rw [if_neg henough]
    cases hasked : s.grants w.memory.pageCount with
    | false => exact .inl ⟨rfl, henough⟩
    | true =>
      -- one page more is still not more than there are
      have hgranted : s.grantsPages (w.memory.pageCount + 1) = true := by
        rw [Setting.grants, Bool.and_eq_true] at hasked
        exact hasked.1
      have hmore : (w.memory.grow 1).pageCount ≤ maxPages := by
        rw [Memory.pageCount_grow]
        exact hgrants _ hgranted
      rcases @ih { w with memory := w.memory.grow 1 } hmore with ⟨h, -⟩ | ⟨h, hfuel⟩ | h
      · exact .inl ⟨h, henough⟩
      · rw [Memory.pageCount_grow] at hfuel
        exact .inr (.inl ⟨h, by omega⟩)
      · obtain ⟨memory, h, hextends, hle, htop, -⟩ := h
        refine .inr (.inr ⟨memory, h, (w.memory.extends_grow 1).trans hextends, hle, htop, ?_⟩)
        exact fun h => absurd h henough

/-- If the host grants all pages up to a limit, which is not all there are, there is room up to
there. -/
theorem Source.makeRoom_of_granted {limit : Nat} (hlimit : limit < maxPages)
    (hgrants : ∀ pages, w.memory.pageCount < pages → pages ≤ limit → s.grantsPages pages)
    (hpages : w.memory.pageCount ≤ limit) {top : UInt32} (htop : top.toNat ≤ limit * Wasm.pageSize)
    {fuel : Nat} (hfuel : limit < fuel + w.memory.pageCount) :
    ∃ memory, makeRoom s top fuel w = .ok ((), { w with memory }) ∧ w.memory.Extends memory ∧
      memory.pageCount ≤ limit ∧ top.toNat ≤ memory.size := by
  induction fuel generalizing w with
  | zero => omega
  | succ fuel ih =>
    unfold makeRoom
    have hbytes := byteCount_toNat (Nat.le_trans hpages (Nat.le_of_lt hlimit))
    have hsize := size_eq w.memory
    simp only [maxPages, Wasm.pageSize, addressSpace] at hlimit htop hbytes
    by_cases henough : top ≤ byteCount w.memory
    · rw [if_pos henough]
      refine ⟨w.memory, rfl, .refl _, hpages, ?_⟩
      have hle := UInt32.le_iff_toNat_le.mp henough
      omega
    · rw [if_neg henough]
      have hless : w.memory.pageCount < limit := by
        rw [UInt32.le_iff_toNat_le] at henough
        omega
      have hcount : UInt32.ofNat w.memory.pageCount ≠ 0xffffffff := by
        intro hlast
        have hnat := congrArg UInt32.toNat hlast
        rw [UInt32.toNat_ofNat_of_lt' (Nat.lt_of_le_of_lt hpages (Nat.lt_trans hlimit (by decide)))]
          at hnat
        have hvalue : (0xffffffff : UInt32).toNat = 4294967295 := rfl
        omega
      have hasked : s.grants w.memory.pageCount = true := by
        simp [Setting.grants, hcount, hgrants _ (Nat.lt_succ_self _) hless]
      rw [if_pos hasked]
      have hmore : (w.memory.grow 1).pageCount = w.memory.pageCount + 1 := w.memory.pageCount_grow 1
      have hgrants' : ∀ pages, (w.memory.grow 1).pageCount < pages → pages ≤ limit →
          s.grantsPages pages := fun pages hlt => hgrants pages (by omega)
      have hpages' : (w.memory.grow 1).pageCount ≤ limit := by omega
      have hfuel' : limit < fuel + (w.memory.grow 1).pageCount := by omega
      obtain ⟨memory, h, hextends, hle, hend⟩ :=
        @ih { w with memory := w.memory.grow 1 } hgrants' hpages' hfuel'
      exact ⟨memory, h, (w.memory.extends_grow 1).trans hextends, hle, hend⟩

/-- The memory after a block of a size was taken: it holds everything below the end of the block,
as the words say, and it did not grow without need. -/
structure Grown (w : World) (size : UInt32) (memory : Memory) : Prop where
  grows : w.memory.Extends memory
  pageCount_le : memory.pageCount ≤ maxPages
  top_le : w.heap + size ≤ Source.byteCount memory
  idle : w.heap + size ≤ Source.byteCount w.memory → memory = w.memory

/-- Taking a block moves the first free address and gives what it was before. -/
theorem Source.reserve_cases (hgrants : ∀ pages, s.grantsPages pages → pages ≤ maxPages)
    (size : UInt32) (hpages : w.memory.pageCount ≤ maxPages) (fuel : Nat) :
    reserve s fuel size w = .error (.trap .unreachable) ∧ ¬w.heap + size ≤ byteCount w.memory ∨
      reserve s fuel size w = .error .endless ∧ fuel + w.memory.pageCount ≤ maxPages ∨
      ∃ memory, reserve s fuel size w = .ok (w.heap, ⟨memory, w.heap + size, w.host⟩) ∧
        Grown w size memory := by
  let start : World := { w with heap := w.heap + size }
  have hreserve : reserve s fuel size w =
      (makeRoom s (w.heap + size) fuel start).bind fun room => .ok (w.heap, room.2) := rfl
  rw [hreserve]
  rcases @makeRoom_cases s start hgrants (w.heap + size) hpages fuel with ⟨h, htop⟩ | ⟨h, hfuel⟩ | h
  · rw [h]
    exact .inl ⟨rfl, htop⟩
  · rw [h]
    exact .inr (.inl ⟨rfl, hfuel⟩)
  · obtain ⟨memory, h, hextends, hle, htop, hidle⟩ := h
    rw [h]
    exact .inr (.inr ⟨memory, rfl, hextends, hle, htop, hidle⟩)

/-- If the host grants all pages up to a limit, a block that ends below it can be taken. -/
theorem Source.reserve_of_granted {limit : Nat} (hlimit : limit < maxPages)
    (hgrants : ∀ pages, w.memory.pageCount < pages → pages ≤ limit → s.grantsPages pages)
    (hpages : w.memory.pageCount ≤ limit) {size : UInt32}
    (hfits : w.heap.toNat + size.toNat ≤ limit * Wasm.pageSize) {fuel : Nat}
    (hfuel : maxPages < fuel) :
    ∃ memory, reserve s fuel size w = .ok (w.heap, ⟨memory, w.heap + size, w.host⟩) ∧
      (w.heap + size).toNat = w.heap.toNat + size.toNat ∧ w.memory.Extends memory ∧
      memory.pageCount ≤ limit ∧ w.heap.toNat + size.toNat ≤ memory.size := by
  -- below the last page the new top does not wrap around
  have htop : (w.heap + size).toNat = w.heap.toNat + size.toNat := by
    rw [UInt32.toNat_add, Nat.mod_eq_of_lt]
    simp only [maxPages, Wasm.pageSize] at hlimit hfits
    omega
  obtain ⟨memory, h, hextends, hle, hend⟩ := @makeRoom_of_granted s
    { w with heap := w.heap + size } limit hlimit hgrants hpages (w.heap + size) (by omega) fuel
    (by omega)
  refine ⟨memory, ?_, htop, hextends, hle, by omega⟩
  show (makeRoom s (w.heap + size) fuel { w with heap := w.heap + size }).bind _ = _
  rw [h]
  rfl

end Reserve

/-! ### Which blocks have addresses

Words against numbers: where the two comparisons say the same. -/

/-- The block ends below the last address, or the memory has all pages already. -/
def Addressable (w : World) (size : UInt32) : Prop :=
  w.memory.pageCount < maxPages → w.heap.toNat + size.toNat < addressSpace

instance (w : World) (size : UInt32) : Decidable (Addressable w size) :=
  inferInstanceAs (Decidable (_ → _))

/-- What an allocator should leave: the first free address moves past the block, which lies inside
the memory, and no byte has changed. -/
structure Allocated (w : World) (size : UInt32) (w' : World) : Prop where
  heap_eq : w'.heap.toNat = w.heap.toNat + size.toNat ∨
    w.heap.toNat + size.toNat = addressSpace ∧ w'.heap = 0
  backed : w.heap.toNat + size.toNat ≤ w'.memory.size
  size_le : w.memory.size ≤ w'.memory.size
  byte_eq : ∀ address < w.memory.size, w'.memory.byte address = w.memory.byte address

section Contract

variable {w : World} {size : UInt32} {memory : Memory}

theorem Grown.size_le (h : Grown w size memory) : w.memory.size ≤ memory.size :=
  Nat.mul_le_mul_right _ h.grows.pageCount_le

/-- The end of the block as a word, which wraps around. -/
theorem toNat_top (w : World) (size : UInt32) :
    (w.heap + size).toNat = (w.heap.toNat + size.toNat) % addressSpace :=
  UInt32.toNat_add _ _

/-- An addressable block ends inside the memory. -/
theorem Grown.end_le (h : Grown w size memory) (hheap : w.heap.toNat ≤ w.memory.size)
    (haddressable : Addressable w size) : w.heap.toNat + size.toNat ≤ memory.size := by
  have htop := UInt32.le_iff_toNat_le.mp h.top_le
  rw [Source.byteCount_toNat h.pageCount_le, toNat_top] at htop
  have hle := h.pageCount_le
  have hmore := h.grows.pageCount_le
  have hsize := size.toNat_lt
  have hstart := w.heap.toNat_lt
  simp only [Addressable, size_eq, maxPages, addressSpace] at *
  -- a memory that had all pages before is as large as every sum of two words that got this far
  omega

/-- A call for an addressable block leaves what it should. -/
theorem Grown.allocated (h : Grown w size memory) (hheap : w.heap.toNat ≤ w.memory.size)
    (haddressable : Addressable w size) : Allocated w size ⟨memory, w.heap + size, w.host⟩ := by
  have hend := h.end_le hheap haddressable
  refine ⟨?_, hend, h.size_le, fun address _ => h.grows.byte_eq address⟩
  have htop := toNat_top w size
  have hle := h.pageCount_le
  simp only [size_eq, maxPages, addressSpace] at *
  by_cases hlast : w.heap.toNat + size.toNat = 4294967296
  · refine .inr ⟨hlast, UInt32.toNat_inj.mp ?_⟩
    show (w.heap + size).toNat = 0
    omega
  · refine .inl ?_
    show (w.heap + size).toNat = _
    omega

/-- The end of a block that is not addressable has wrapped around: it looks as if the memory held
the block. -/
theorem top_le_of_not_addressable (hheap : w.heap.toNat ≤ w.memory.size)
    (h : ¬Addressable w size) : w.heap + size ≤ Source.byteCount w.memory := by
  obtain ⟨hroom, hwraps⟩ := Classical.not_imp.mp h
  have hstart := w.heap.toNat_lt
  have hsize := size.toNat_lt
  rw [UInt32.le_iff_toNat_le, Source.byteCount_toNat (Nat.le_of_lt hroom), toNat_top]
  simp only [size_eq, maxPages, addressSpace] at *
  omega

/-- If a call left what it should, the block was addressable: otherwise no page is asked for, and
the block is not inside the memory. -/
theorem Grown.addressable_of_allocated (h : Grown w size memory)
    (hheap : w.heap.toNat ≤ w.memory.size)
    (hallocated : Allocated w size ⟨memory, w.heap + size, w.host⟩) : Addressable w size := by
  by_contra hnot
  have hsame : memory = w.memory := h.idle (top_le_of_not_addressable hheap hnot)
  have hbacked : w.heap.toNat + size.toNat ≤ memory.size := hallocated.backed
  obtain ⟨hroom, hwraps⟩ := Classical.not_imp.mp hnot
  rw [hsame] at hbacked
  simp only [size_eq, maxPages, addressSpace] at *
  omega

end Contract

/-! ### Calls

From the evaluation to calls by the host. -/

/-- A call of a function by the host comes to an end with a result. -/
def Wasm.Environment.Ends (env : Environment) (index : Nat) (args : List Value) (arity : Nat)
    (store : Store) (result : Except Trap (List Value × Store)) : Prop :=
  ∃ steps, (Machine.calling index args arity store).run env steps = some result

/-- A machine comes to one end. -/
theorem Wasm.Machine.run_unique {env : Environment} {m : Machine} {steps steps' : Nat}
    {result result' : Except Trap (List Value × Store)} (h : m.run env steps = some result)
    (h' : m.run env steps' = some result') : result = result' := by
  induction steps generalizing m steps' with
  | zero => cases h
  | succ steps ih =>
    cases steps' with
    | zero => cases h'
    | succ steps' =>
      rw [run] at h h'
      cases hstep : m.step env with
      | running m₁ =>
        rw [hstep] at h h'
        exact ih h h'
      | finished _ _ | trapped _ =>
        rw [hstep] at h h'
        exact Option.some.inj (h.symm.trans h')

/-- A machine has everything that makes up a world. -/
theorem Source.World.store_injective {w w' : World} (h : w.store = w'.store) : w = w' := by
  obtain ⟨memory, heap, host⟩ := w
  obtain ⟨memory', heap', host'⟩ := w'
  simpa [store] using h

/-- The allocator can be called, and the host grants no more pages than there are. -/
structure HasAllocator (env : Environment) (index : Nat) : Prop where
  function : ∃ room ≤ env.stackRoom, env.functions[index]? =
    some (.defined allocator.type ⟨allocator.locals, allocator.body⟩ room)
  pages : ∀ pages, env.grantsPages pages → pages ≤ maxPages

/-- What a result of the allocator should be: a trap, or the address of a block as it should be. -/
def MeetsContract (w : World) (size : UInt32) : Except Trap (List Value × Store) → Prop
  | .error _ => True
  | .ok (results, store) =>
    results = [.i32 w.heap] ∧ ∃ w' : World, store = w'.store ∧ Allocated w size w'

section Calls

variable {env : Environment} {index : Nat} {w : World}

/-- A call of the allocator comes to the end that taking a block has. -/
theorem HasAllocator.ends_of_reserve (h : HasAllocator env index) {s : Setting}
    (hgrants : env.grantsPages = s.grantsPages) (fuel : Nat) (size : UInt32) :
    (∀ block w', Source.reserve s fuel size w = .ok (block, w') →
        env.Ends index [.i32 size] 1 w.store (.ok ([.i32 block], w'.store))) ∧
      ∀ cause, Source.reserve s fuel size w = .error (.trap cause) →
        env.Ends index [.i32 size] 1 w.store (.error cause) := by
  obtain ⟨room, hroom, hindex⟩ := h.function
  let p : Place := ⟨[], 1, 0, []⟩
  have hfollows : Follows env (p.machine [.call index] [.i32 size] #[] w.store)
      (Source.reserve s fuel size w) fun block w' m' =>
        m' = p.machine [] [.i32 block] #[] w'.store :=
    reserveFollows_allocator hgrants hindex fuel p [] [] #[] w size (by simpa [p] using hroom)
  refine ⟨fun block w' hcase => ?_, fun cause hcase => ?_⟩
  · rw [hcase] at hfollows
    obtain ⟨_, hreaches, rfl⟩ := hfollows
    exact Machine.run_of_reaches hreaches ⟨1, rfl⟩
  · rw [hcase] at hfollows
    obtain ⟨m, hreaches, hstep⟩ := hfollows
    refine Machine.run_of_reaches hreaches ⟨1, ?_⟩
    rw [Machine.run, hstep]

/-- A call of the allocator ends: the host refused a page, or the memory has grown. -/
theorem HasAllocator.ends (h : HasAllocator env index) (hpages : w.memory.pageCount ≤ maxPages)
    (size : UInt32) :
    ¬w.heap + size ≤ Source.byteCount w.memory ∧
        env.Ends index [.i32 size] 1 w.store (.error .unreachable) ∨
      ∃ memory, Grown w size memory ∧ env.Ends index [.i32 size] 1 w.store
        (.ok ([.i32 w.heap], World.store ⟨memory, w.heap + size, w.host⟩)) := by
  -- the allocator does what taking a block means, for a bound that is never reached
  let s : Setting := ⟨⟨[]⟩, .empty 0, env.exportsMemory, env.grantsPages⟩
  let fuel := maxPages + 1
  obtain ⟨hreturns, htraps⟩ := @HasAllocator.ends_of_reserve env index w h s rfl fuel size
  rcases @Source.reserve_cases s w h.pages size hpages fuel with
    ⟨hcase, htop⟩ | ⟨-, hfuel⟩ | ⟨memory, hcase, hgrown⟩
  · exact .inl ⟨htop, htraps _ hcase⟩
  · exact absurd hfuel (by omega)
  · exact .inr ⟨memory, hgrown, hreturns _ _ hcase⟩

/-- Where a call of the allocator returns, a block is taken as it was. -/
theorem HasAllocator.reserve_of_ends (h : HasAllocator env index)
    (hpages : w.memory.pageCount ≤ maxPages) {s : Setting}
    (hgrants : env.grantsPages = s.grantsPages) {fuel : Nat} (hfuel : maxPages < fuel)
    {size : UInt32} {results : List Value} {w' : World}
    (hends : env.Ends index [.i32 size] 1 w.store (.ok (results, w'.store))) :
    Source.reserve s fuel size w = .ok (w.heap, w') ∧ Grown w size w'.memory := by
  obtain ⟨hreturns, htraps⟩ := @HasAllocator.ends_of_reserve env index w h s hgrants fuel size
  obtain ⟨steps, hrun⟩ := hends
  -- the machine ends in one way only, so the source takes the case that returns
  rcases @Source.reserve_cases s w (hgrants ▸ h.pages) size hpages fuel with
    ⟨hcase, -⟩ | ⟨-, hless⟩ | ⟨memory, hcase, hgrown⟩
  · obtain ⟨steps', hrun'⟩ := htraps _ hcase
    cases Machine.run_unique hrun hrun'
  · exact absurd hless (by omega)
  · obtain ⟨steps', hrun'⟩ := hreturns _ _ hcase
    have heq := Except.ok.inj (Machine.run_unique hrun hrun')
    obtain rfl := Source.World.store_injective (Prod.mk.inj heq).2
    exact ⟨hcase, hgrown⟩

/-- What a call that returns has done. -/
theorem HasAllocator.grown_of_ends (h : HasAllocator env index)
    (hpages : w.memory.pageCount ≤ maxPages) {size : UInt32} {results : List Value} {w' : World}
    (hends : env.Ends index [.i32 size] 1 w.store (.ok (results, w'.store))) :
    results = [.i32 w.heap] ∧ ∃ memory, Grown w size memory ∧
      w' = ⟨memory, w.heap + size, w.host⟩ := by
  obtain ⟨steps, hrun⟩ := hends
  rcases h.ends hpages size with ⟨-, steps', hrun'⟩ | ⟨memory, hgrown, steps', hrun'⟩
  · cases Machine.run_unique hrun hrun'
  · have heq := Except.ok.inj (Machine.run_unique hrun hrun')
    obtain ⟨hresults, hstore⟩ := Prod.mk.inj heq
    exact ⟨hresults, memory, hgrown, Source.World.store_injective hstore⟩

end Calls

/-! ### Sequences of calls

Each block begins where the one before it ends, or later. -/

/-- Calls of the allocator one after another, all for addressable blocks and all of which return.
Between them a program may change its memory, but not its size, and not the first free address.
The blocks are listed by address and size. -/
inductive Allocations (index : Nat) : World → List (Nat × Nat) → World → Prop
  | nil {w} : Allocations index w [] w
  | other {w w₁ w' blocks} (hheap : w₁.heap = w.heap)
    (hpages : w₁.memory.pageCount = w.memory.pageCount) (hrest : Allocations index w₁ blocks w') :
    Allocations index w blocks w'
  | call {env w w₁ w' blocks} {size address : UInt32} (hallocator : HasAllocator env index)
    (haddressable : Addressable w size)
    (hends : env.Ends index [.i32 size] 1 w.store (.ok ([.i32 address], w₁.store)))
    (hrest : Allocations index w₁ blocks w') :
    Allocations index w ((address.toNat, size.toNat) :: blocks) w'

/-- The blocks that are not empty. -/
def nonempty (blocks : List (Nat × Nat)) : List (Nat × Nat) :=
  blocks.filter (0 < ·.2)

namespace Allocations

variable {index : Nat} {w w' : World} {blocks : List (Nat × Nat)}

/-- By induction on the calls: none takes pages away. -/
theorem pageCount_le (h : Allocations index w blocks w')
    (hpages : w.memory.pageCount ≤ maxPages) : w.memory.pageCount ≤ w'.memory.pageCount := by
  induction h with
  | nil => exact Nat.le_refl _
  | other _ hsame _ ih =>
    rw [← hsame] at hpages ⊢
    exact ih hpages
  | call hallocator _ hends _ ih =>
    obtain ⟨-, memory, hgrown, rfl⟩ := hallocator.grown_of_ends hpages hends
    exact Nat.le_trans hgrown.grows.pageCount_le (ih hgrown.pageCount_le)

/-- Once all addresses are taken, only empty blocks are given out. -/
theorem nonempty_eq_nil (h : Allocations index w blocks w') (hheap : w.heap = 0)
    (hpages : w.memory.pageCount = maxPages) : nonempty blocks = [] := by
  induction h with
  | nil => rfl
  | other hheap' hpages' _ ih => exact ih (hheap'.trans hheap) (hpages'.trans hpages)
  | @call env w w₁ w' blocks size address hallocator _ hends _ ih =>
    obtain ⟨-, memory, hgrown, rfl⟩ := hallocator.grown_of_ends (Nat.le_of_eq hpages) hends
    have hmost : memory.pageCount = maxPages :=
      Nat.le_antisymm hgrown.pageCount_le (hpages ▸ hgrown.grows.pageCount_le)
    -- the size of the memory is zero as a word, so the block is empty
    have htop := UInt32.le_iff_toNat_le.mp hgrown.top_le
    rw [Source.byteCount_toNat hgrown.pageCount_le, hheap, UInt32.zero_add, size_eq, hmost] at htop
    have hsize : size.toNat = 0 := Nat.eq_zero_of_le_zero htop
    have hheap' : w.heap + size = 0 := by
      rw [hheap, UInt32.zero_add]
      exact UInt32.toNat_inj.mp hsize
    have hrest := ih hheap' hmost
    rw [nonempty, hsize, List.filter_cons_of_neg (by simp)]
    exact hrest

/-- The blocks lie one after another, from the first free address on, inside the memory. -/
theorem ordered (h : Allocations index w blocks w') (hpages : w.memory.pageCount ≤ maxPages)
    (hheap : w.heap.toNat ≤ w.memory.size) :
    (nonempty blocks).Pairwise (fun b b' => b.1 + b.2 ≤ b'.1) ∧
      ∀ b ∈ nonempty blocks, w.heap.toNat ≤ b.1 ∧ b.1 + b.2 ≤ w'.memory.size := by
  induction h with
  | nil => exact ⟨.nil, by simp [nonempty]⟩
  | @other w w₁ w' blocks hheap' hpages' _ ih =>
    rw [← hheap'] at hheap ⊢
    refine ih (hpages' ▸ hpages) ?_
    rwa [size_eq, hpages', ← size_eq]
  | @call env w w₁ w' blocks size address hallocator haddressable hends hrest ih =>
    obtain ⟨hresults, memory, hgrown, rfl⟩ := hallocator.grown_of_ends hpages hends
    obtain rfl : address = w.heap := by simpa using hresults
    have hallocated := hgrown.allocated hheap haddressable
    have hend : w.heap.toNat + size.toNat ≤ memory.size := hallocated.backed
    have hlast : memory.size ≤ w'.memory.size :=
      Nat.mul_le_mul_right _ (hrest.pageCount_le hgrown.pageCount_le)
    -- the blocks that follow lie behind this one
    have hafter : (nonempty blocks).Pairwise (fun b b' => b.1 + b.2 ≤ b'.1) ∧
        ∀ b ∈ nonempty blocks,
          w.heap.toNat + size.toNat ≤ b.1 ∧ b.1 + b.2 ≤ w'.memory.size := by
      rcases hallocated.heap_eq with heq | ⟨hall, hzero⟩
      · have heq : (w.heap + size).toNat = w.heap.toNat + size.toNat := heq
        have hbehind := ih hgrown.pageCount_le (Nat.le_trans (Nat.le_of_eq heq) hend)
        rwa [heq] at hbehind
      · have hmost : memory.pageCount = maxPages := by
          have hle := hgrown.pageCount_le
          simp only [size_eq, maxPages, addressSpace] at *
          omega
        rw [hrest.nonempty_eq_nil hzero hmost]
        exact ⟨.nil, by simp⟩
    by_cases hempty : size.toNat = 0
    · rw [hempty, Nat.add_zero] at hafter
      rw [nonempty, List.filter_cons_of_neg (by simp [hempty])]
      exact hafter
    · rw [nonempty, List.filter_cons_of_pos (by simp; omega)]
      refine ⟨List.pairwise_cons.mpr ⟨fun b hb => (hafter.2 b hb).1, hafter.1⟩, ?_⟩
      refine List.forall_mem_cons.mpr ⟨⟨Nat.le_refl _, Nat.le_trans hend hlast⟩, fun b hb => ?_⟩
      have := hafter.2 b hb
      exact ⟨by omega, this.2⟩

end Allocations

/-- **The contract of the allocator.** From any state in which the first free address is inside the
memory, a call for any size comes to an end, and it does what it should exactly if the block is
addressable. The blocks that are given out by calls for addressable blocks lie behind the base of
the heap, apart from each other and inside the memory. -/
theorem allocator_meets_contract_iff {env : Environment} {index : Nat} {w : World}
    (henv : HasAllocator env index) (hpages : w.memory.pageCount ≤ maxPages)
    (hheap : w.heap.toNat ≤ w.memory.size) :
    (∀ size, ∃ result, env.Ends index [.i32 size] 1 w.store result ∧
      (MeetsContract w size result ↔ Addressable w size)) ∧
    ∀ base blocks w', base ≤ w.heap.toNat → Allocations index w blocks w' →
      (nonempty blocks).Pairwise (fun b b' => b.1 + b.2 ≤ b'.1) ∧
        ∀ b ∈ nonempty blocks, base ≤ b.1 ∧ b.1 + b.2 ≤ w'.memory.size := by
  refine ⟨fun size => ?_, fun base blocks w' hbase hblocks => ?_⟩
  · rcases henv.ends hpages size with ⟨htop, hends⟩ | ⟨memory, hgrown, hends⟩
    · -- a refusal comes only for addressable blocks, as the others ask for no page
      have haddressable : Addressable w size := by
        by_contra hnot
        exact htop (top_le_of_not_addressable hheap hnot)
      exact ⟨_, hends, iff_of_true trivial haddressable⟩
    · refine ⟨_, hends, ?_, fun haddressable => ?_⟩
      · rintro ⟨-, w', hstore, hallocated⟩
        obtain rfl := Source.World.store_injective hstore
        exact hgrown.addressable_of_allocated hheap hallocated
      · exact ⟨rfl, _, rfl, hgrown.allocated hheap haddressable⟩
  · obtain ⟨hapart, hinside⟩ := hblocks.ordered hpages hheap
    refine ⟨hapart, fun b hb => ?_⟩
    obtain ⟨hbehind, hend⟩ := hinside b hb
    exact ⟨Nat.le_trans hbase hbehind, hend⟩

/-- An environment that has the allocator and nothing else. -/
def allocatorEnvironment : Environment :=
  { functions := #[.defined allocator.type ⟨allocator.locals, allocator.body⟩ 0]
    exportsMemory := true
    grantsPages := (· ≤ maxPages)
    stackRoom := 0 }

/-- One page, with the heap at its usual base. -/
def onePage : World :=
  ⟨.zero 1, 8, .initial⟩

/-- A block that would end four bytes behind the last address does not fit, but is given out. -/
theorem allocator_meets_contract_iff_wrapped :
    HasAllocator allocatorEnvironment 0 ∧ ¬Addressable onePage 0xfffffffc ∧
      ∃ result, allocatorEnvironment.Ends 0 [.i32 0xfffffffc] 1 onePage.store result ∧
        ¬MeetsContract onePage 0xfffffffc result := by
  have henv : HasAllocator allocatorEnvironment 0 :=
    ⟨⟨0, Nat.le_refl _, rfl⟩, fun pages hpages => of_decide_eq_true hpages⟩
  have hpages : onePage.memory.pageCount = 1 := by
    simp [onePage, Memory.zero, Memory.pageCount]
  have hheap : onePage.heap.toNat ≤ onePage.memory.size := by
    rw [size_eq, hpages]
    decide
  have hwraps : ¬Addressable onePage 0xfffffffc := by
    rw [Addressable, hpages]
    decide
  obtain ⟨result, hends, hiff⟩ :=
    (allocator_meets_contract_iff henv (hpages ▸ by decide) hheap).1 0xfffffffc
  exact ⟨henv, hwraps, result, hends, fun hmeets => hwraps (hiff.mp hmeets)⟩

end WasmCompiler
