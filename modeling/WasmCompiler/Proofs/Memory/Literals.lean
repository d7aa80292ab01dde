import Mathlib.Algebra.GroupWithZero.Nat
import WasmCompiler.Proofs.Memory.Allocator

/-!
# Array literals in memory

An array literal of arrays, and so on down to integers, takes one block for each array in it. The
block of an array is taken before its items are looked at, so that the blocks of the items follow it
in order: where each of them begins is known from the literal alone (`Expr.start`). `Laid` says that
a memory holds a literal from an address on. It speaks about the bytes of the literal only, so that
it survives whatever is written elsewhere, and along every path of indices it leads to the part of
the literal that is at this path.

`evalExpr_laid` is the induction over a literal for which there is room, and `evalExpr_traps` the
one for a literal that needs the last page. Both keep track of where the heap is (`Takes`, `Roomy`).
-/

namespace WasmCompiler

open Source (Datum Interpreter Scopes Setting World)
open Wasm (Memory)

/-! ### Literals

Sizes and places, computed from the literal alone. -/

namespace Expr

mutual

/-- Arrays of arrays and so on, none of them without items, of integers of 32 bits. -/
def isNested : Expr → Bool
  | .integer _ value => -0x80000000 ≤ value ∧ value < 0x80000000
  | .array _ items => !items.isEmpty && areNested items
  | _ => false

def areNested : List Expr → Bool
  | [] => true
  | e :: es => e.isNested && areNested es

end

mutual

/-- The items of every array in a literal, those of the literal itself first. -/
def arrays : Expr → List (List Expr)
  | .array _ items => items :: arraysAll items
  | _ => []

def arraysAll : List Expr → List (List Expr)
  | [] => []
  | e :: es => e.arrays ++ arraysAll es

end

/-- The size of the block of an array, which has a cell for the length. -/
def blockSize (items : List Expr) : Nat :=
  cellSize * (items.length + 1)

/-- The bytes that a literal takes: a cell for each element and for each array. -/
def literalSize (e : Expr) : Nat :=
  cellSize * ((e.arrays.map List.length).sum + e.arrays.length)

/-- The bytes that the items before one of them take. -/
def itemOffset (items : List Expr) (i : Nat) : Nat :=
  ((items.take i).map literalSize).sum

/-- The part of a literal at a path of indices. -/
def at? : Expr → List Nat → Option Expr
  | e, [] => some e
  | .array _ items, i :: path => items[i]?.bind (·.at? path)
  | _, _ :: _ => none

/-- Where the blocks of the part at a path begin, if those of the literal begin at an address. -/
def start : Expr → Nat → List Nat → Nat
  | _, lo, [] => lo
  | .array _ items, lo, i :: path =>
    (items[i]?.map (·.start (lo + blockSize items + itemOffset items i) path)).getD lo
  | _, lo, _ :: _ => lo

section Sizes

variable {items : List Expr} {item e sub : Expr} {location : Location} {i j : Nat} {path : List Nat}

theorem areNested_iff : areNested items ↔ ∀ e ∈ items, e.isNested := by
  induction items with
  | nil => simp [areNested]
  | cons e es ih => simp [areNested, ih]

/-- An array is nested if it has items and all of them are. -/
theorem isNested_array_iff :
    (array location items).isNested ↔ items ≠ [] ∧ ∀ e ∈ items, e.isNested := by
  simp [isNested, areNested_iff]

@[simp] theorem literalSize_integer (value : Int) : (integer location value).literalSize = 0 := by
  simp [literalSize, arrays]

/-- A literal takes its own block and what its items take. -/
theorem literalSize_array :
    (array location items).literalSize = blockSize items + (items.map literalSize).sum := by
  have hall : ∀ es : List Expr, (es.map literalSize).sum =
      cellSize * (((arraysAll es).map List.length).sum + (arraysAll es).length) := by
    intro es
    induction es with
    | nil => simp [arraysAll]
    | cons e es ih =>
      rw [List.map_cons, List.sum_cons, ih, literalSize, arraysAll, ← Nat.mul_add]
      simp only [List.map_append, List.sum_append, List.length_append]
      congr 1
      omega
  rw [hall, literalSize, arrays, blockSize, ← Nat.mul_add]
  simp only [List.map_cons, List.sum_cons, List.length_cons]
  congr 1
  omega

@[simp] theorem itemOffset_zero : itemOffset items 0 = 0 := by
  simp [itemOffset]

theorem itemOffset_succ (h : items[i]? = some item) :
    itemOffset items (i + 1) = itemOffset items i + item.literalSize := by
  rw [itemOffset, List.take_add_one, h]
  simp [itemOffset]

theorem itemOffset_cons : itemOffset (e :: items) (i + 1) = e.literalSize + itemOffset items i := by
  simp [itemOffset]

theorem itemOffset_mono (h : i ≤ j) : itemOffset items i ≤ itemOffset items j := by
  obtain ⟨k, rfl⟩ := Nat.exists_eq_add_of_le h
  rw [itemOffset, itemOffset, List.take_add, List.map_append, List.sum_append]
  exact Nat.le_add_right _ _

theorem itemOffset_le : itemOffset items i ≤ (items.map literalSize).sum := by
  have hwhole := congrArg (fun es => (List.map literalSize es).sum) (List.take_append_drop i items)
  simp only [List.map_append, List.sum_append] at hwhole
  rw [itemOffset, ← hwhole]
  exact Nat.le_add_right _ _

/-- What lies along a path begins with an item. -/
theorem at?_cons (h : e.at? (i :: path) = some sub) :
    ∃ location items item, e = .array location items ∧ items[i]? = some item ∧
      item.at? path = some sub := by
  cases e with
  | array location items =>
    rw [at?, Option.bind_eq_some_iff] at h
    obtain ⟨item, hitem, hsub⟩ := h
    exact ⟨location, items, item, rfl, hitem, hsub⟩
  | _ => simp [at?] at h

/-- The parts of a nested literal are nested literals. -/
theorem isNested_at? (h : e.isNested) (hat : e.at? path = some sub) : sub.isNested := by
  induction path generalizing e with
  | nil =>
    obtain rfl : e = sub := Option.some.inj hat
    exact h
  | cons i path ih =>
    obtain ⟨location, items, item, rfl, hitem, hsub⟩ := at?_cons hat
    exact ih ((isNested_array_iff.mp h).2 item (List.mem_of_getElem? hitem)) hsub

/-- The first step of a path leads behind the block of the array and the items before. -/
theorem start_cons {lo : Nat} (h : items[i]? = some item) :
    (array location items).start lo (i :: path) =
      item.start (lo + blockSize items + itemOffset items i) path := by
  simp [start, h]

/-- The part at a path lies inside the literal. -/
theorem start_within {lo : Nat} (h : e.at? path = some sub) :
    lo ≤ e.start lo path ∧ e.start lo path + sub.literalSize ≤ lo + e.literalSize := by
  induction path generalizing e lo with
  | nil =>
    obtain rfl : e = sub := Option.some.inj h
    exact ⟨Nat.le_refl lo, Nat.le_refl _⟩
  | cons i path ih =>
    obtain ⟨location, items, item, rfl, hitem, hsub⟩ := at?_cons h
    have hinside := @ih item (lo + blockSize items + itemOffset items i) hsub
    have hnext := itemOffset_succ hitem
    have hall := @itemOffset_le items (i + 1)
    rw [start_cons hitem, literalSize_array]
    omega

/-- The parts of the items begin behind the block of the array. -/
theorem start_behind {lo : Nat} (h : (array location items).at? (i :: path) = some sub) :
    lo + blockSize items ≤ (array location items).start lo (i :: path) := by
  obtain ⟨_, _, item, heq, hitem, hsub⟩ := at?_cons h
  cases heq
  rw [start_cons hitem]
  have hinside := @start_within item sub path (lo + blockSize items + itemOffset items i) hsub
  omega

/-- The blocks of two arrays in a literal do not overlap. -/
theorem blocks_apart {lo : Nat} {path' : List Nat} {items' : List Expr} {location' : Location}
    (h : e.at? path = some (.array location items))
    (h' : e.at? path' = some (.array location' items')) (hne : path ≠ path') :
    e.start lo path + blockSize items ≤ e.start lo path' ∨
      e.start lo path' + blockSize items' ≤ e.start lo path := by
  induction path generalizing e lo path' with
  | nil =>
    obtain rfl : e = _ := Option.some.inj h
    cases path' with
    | nil => exact absurd rfl hne
    | cons j path' => exact .inl (start_behind h')
  | cons i path ih =>
    cases path' with
    | nil =>
      obtain rfl : e = _ := Option.some.inj h'
      exact .inr (start_behind h)
    | cons j path' =>
      obtain ⟨_, all, item, rfl, hitem, hsub⟩ := at?_cons h
      obtain ⟨_, _, other, heq, hother, hsub'⟩ := at?_cons h'
      cases heq
      rw [start_cons hitem, start_cons hother]
      -- different items lie apart, and so do all parts of them
      have hinside := @start_within item _ path (lo + blockSize all + itemOffset all i) hsub
      have hinside' := @start_within other _ path' (lo + blockSize all + itemOffset all j) hsub'
      have hblock : blockSize items ≤ (array location items).literalSize := by
        rw [literalSize_array]
        omega
      have hblock' : blockSize items' ≤ (array location' items').literalSize := by
        rw [literalSize_array]
        omega
      have hnext := itemOffset_succ hitem
      have hnext' := itemOffset_succ hother
      rcases Nat.lt_trichotomy i j with hlt | rfl | hlt
      · have hmono := @itemOffset_mono all (i + 1) j hlt
        omega
      · obtain rfl : item = other := Option.some.inj (hitem.symm.trans hother)
        exact ih hsub hsub' fun heq => hne (by rw [heq])
      · have hmono := @itemOffset_mono all (j + 1) i hlt
        omega

end Sizes

end Expr

/-! ### What memory holds

The cells of a block, and the blocks of its items. -/

/-- The machine value of a literal whose blocks begin at an address. -/
def Expr.place : Expr → Nat → UInt32
  | .integer _ value, _ => (Int32.ofInt value).toUInt32
  | _, lo => .ofNat lo

@[simp] theorem Expr.place_array (location : Location) (items : List Expr) (lo : Nat) :
    (array location items).place lo = .ofNat lo := rfl

/-- Goes along indices from an array on: from address to element, as indexing does. -/
def Wasm.Memory.follow? (m : Memory) : UInt32 → List Nat → Option UInt32
  | word, [] => some word
  | word, i :: path => (m.word? (Source.elementAddress word (.ofNat i))).bind (m.follow? · path)

mutual

/-- The blocks of a literal are in a memory, from an address on. -/
def Laid (m : Memory) : Expr → Nat → Prop
  | .array _ items, lo => m.word? lo = some (.ofNat items.length) ∧
      LaidItems m items (lo + cellSize) (lo + Expr.blockSize items)
  | _, _ => True

/-- The items of an array are in the cells from one on, and their own blocks from an address on. -/
def LaidItems (m : Memory) : List Expr → (cell lo : Nat) → Prop
  | [], _, _ => True
  | e :: es, cell, lo => m.word? cell = some (e.place lo) ∧ Laid m e lo ∧
      LaidItems m es (cell + cellSize) (lo + e.literalSize)

end

section Laid

variable {m m' : Memory} {e sub item : Expr} {items : List Expr} {cell lo i : Nat} {path : List Nat}

/-- The cell of an item holds its value, and its own blocks are in memory. -/
theorem LaidItems.get (h : LaidItems m items cell lo) (hitem : items[i]? = some item) :
    m.word? (cell + i * cellSize) = some (item.place (lo + Expr.itemOffset items i)) ∧
      Laid m item (lo + Expr.itemOffset items i) := by
  induction items generalizing i cell lo with
  | nil => simp at hitem
  | cons e es ih =>
    obtain ⟨hword, hlaid, hrest⟩ := h
    cases i with
    | zero =>
      obtain rfl : e = item := by simpa using hitem
      simpa using ⟨hword, hlaid⟩
    | succ i =>
      have hfound := ih hrest (by simpa using hitem)
      rw [Expr.itemOffset_cons, Nat.succ_mul, Nat.add_comm (i * cellSize), ← Nat.add_assoc,
        ← Nat.add_assoc]
      exact hfound

/-- The element of an array is in its cell behind the length. -/
theorem elementAddress_eq {count : Nat} (hi : i < count)
    (hfits : lo + cellSize * (count + 1) ≤ addressSpace) :
    Source.elementAddress (.ofNat lo) (.ofNat i) = lo + cellSize + i * cellSize := by
  -- all numbers stay below the end of the addresses, so that no operation wraps around
  have hlo : (UInt32.ofNat lo).toNat = lo := by
    refine UInt32.toNat_ofNat_of_lt' ?_
    show lo < addressSpace
    rw [cellSize] at hfits
    omega
  have hindex : (UInt32.ofNat i).toNat = i := by
    refine UInt32.toNat_ofNat_of_lt' ?_
    show i < addressSpace
    rw [cellSize] at hfits
    omega
  have hcell : (UInt32.ofNat cellSize).toNat = 4 := rfl
  rw [Source.elementAddress, UInt32.toNat_add, UInt32.toNat_mul, hlo, hindex, hcell]
  simp only [cellSize, addressSpace] at *
  omega

/-- Along a path, indexing leads to the part of the literal that is there. -/
theorem Laid.follow (h : Laid m e lo) (hfits : lo + e.literalSize ≤ addressSpace)
    (hat : e.at? path = some sub) :
    m.follow? (e.place lo) path = some (sub.place (e.start lo path)) ∧
      Laid m sub (e.start lo path) := by
  induction path generalizing e lo with
  | nil =>
    obtain rfl : e = sub := Option.some.inj hat
    exact ⟨rfl, h⟩
  | cons i path ih =>
    obtain ⟨location, items, item, rfl, hitem, hsub⟩ := Expr.at?_cons hat
    have hi : i < items.length := (List.getElem?_eq_some_iff.mp hitem).1
    obtain ⟨hword, hlaid⟩ := LaidItems.get h.2 hitem
    have hnext := Expr.itemOffset_succ hitem
    have hall := @Expr.itemOffset_le items (i + 1)
    rw [Expr.literalSize_array] at hfits
    have hblock : lo + cellSize * (items.length + 1) ≤ addressSpace := by
      rw [Expr.blockSize] at hfits
      omega
    have haddress := elementAddress_eq hi hblock
    obtain ⟨hfollow, hlaid'⟩ := ih hlaid (by omega) hsub
    rw [Expr.start_cons hitem]
    refine ⟨?_, hlaid'⟩
    show (m.word? (Source.elementAddress (.ofNat lo) (.ofNat i))).bind (m.follow? · path) = _
    rw [haddress, hword]
    exact hfollow

/-- A word stays if its bytes do. -/
theorem Wasm.Memory.word?_frame {address : Nat} {word : UInt32} (h : m.word? address = some word)
    (hsize : m.size ≤ m'.size)
    (hbytes : ∀ a, address ≤ a → a < address + 4 → m'.byte a = m.byte a) :
    m'.word? address = some word := by
  rw [word?] at h
  split at h
  · rename_i hcontains
    rw [contains, decide_eq_true_eq] at hcontains
    have hcontains' : m'.contains address 4 = true := by
      rw [contains, decide_eq_true_eq]
      omega
    rw [word?, if_pos hcontains', hbytes _ (by omega) (by omega), hbytes _ (by omega) (by omega),
      hbytes _ (by omega) (by omega), hbytes _ (by omega) (by omega)]
    exact h
  · cases h

mutual

/-- A literal stays in memory if its bytes do. -/
theorem Laid.frame (hsize : m.size ≤ m'.size) : (e : Expr) → {lo : Nat} →
    (∀ a, lo ≤ a → a < lo + e.literalSize → m'.byte a = m.byte a) → Laid m e lo → Laid m' e lo
  | .array location items, lo, hbytes, h => by
    rw [Expr.literalSize_array, Expr.blockSize, cellSize] at hbytes
    refine ⟨Wasm.Memory.word?_frame h.1 hsize fun a hle hlt => hbytes a hle (by omega), ?_⟩
    refine LaidItems.frame hsize items ?_ ?_ h.2
    · intro a hle hlt
      simp only [cellSize] at hle hlt
      exact hbytes a (by omega) (by omega)
    · intro a hle hlt
      rw [Expr.blockSize, cellSize] at hle hlt
      exact hbytes a (by omega) (by omega)
  | .integer .., _, _, _ | .float .., _, _, _ | .string .., _, _, _ | .identifier .., _, _, _
  | .unary .., _, _, _ | .binary .., _, _, _ | .call .., _, _, _ | .member .., _, _, _
  | .index .., _, _, _ | .tuple .., _, _, _ => by simp [Laid]

theorem LaidItems.frame (hsize : m.size ≤ m'.size) : (items : List Expr) → {cell lo : Nat} →
    (∀ a, cell ≤ a → a < cell + items.length * cellSize → m'.byte a = m.byte a) →
    (∀ a, lo ≤ a → a < lo + (items.map Expr.literalSize).sum → m'.byte a = m.byte a) →
    LaidItems m items cell lo → LaidItems m' items cell lo
  | [], _, _, _, _, _ => trivial
  | e :: es, cell, lo, hcells, hbytes, h => by
    rw [List.length_cons, cellSize] at hcells
    rw [List.map_cons, List.sum_cons] at hbytes
    obtain ⟨hword, hlaid, hrest⟩ := h
    refine ⟨Wasm.Memory.word?_frame hword hsize fun a hle hlt => hcells a hle (by omega), ?_, ?_⟩
    · exact Laid.frame hsize e (fun a hle hlt => hbytes a hle (by omega)) hlaid
    · refine LaidItems.frame hsize es (fun a hle hlt => hcells a ?_ ?_)
        (fun a hle hlt => hbytes a (by omega) (by omega)) hrest
      · omega
      · simp only [cellSize] at hle hlt
        omega

end

end Laid

/-! ### Taking blocks and writing into them

The effect of an evaluation on the heap and on the bytes. -/

open Wasm.Validation (maxPages)

/-- The heap has moved up by a size, certain bytes may have changed, and the memory has not grown
beyond a limit. -/
structure Takes (limit : Nat) (w w' : World) (size : Nat) (changed : Nat → Prop) : Prop where
  heap : w'.heap.toNat = w.heap.toNat + size
  host : w'.host = w.host
  grows : w.memory.pageCount ≤ w'.memory.pageCount
  pages : w'.memory.pageCount ≤ limit
  bytes : ∀ a, ¬ changed a → w'.memory.byte a = w.memory.byte a

/-- The memory is within a limit, and the host lets it have all pages up to there, which are not all
there are. -/
structure Roomy (s : Setting) (limit : Nat) (w : World) : Prop where
  limit_lt : limit < maxPages
  pages : w.memory.pageCount ≤ limit
  grants : ∀ pages, w.memory.pageCount < pages → pages ≤ limit → s.grantsPages pages

section Takes

variable {s : Setting} {limit size size' : Nat} {w w₁ w' : World} {changed changed' : Nat → Prop}

/-- Two evaluations take their blocks one behind the other. -/
theorem Takes.trans (h : Takes limit w w₁ size changed) (h' : Takes limit w₁ w' size' changed') :
    Takes limit w w' (size + size') fun a => changed a ∨ changed' a := by
  refine ⟨?_, h'.host.trans h.host, Nat.le_trans h.grows h'.grows, h'.pages, fun a ha => ?_⟩
  · rw [h'.heap, h.heap, Nat.add_assoc]
  · obtain ⟨hkept, hkept'⟩ := not_or.mp ha
    rw [h'.bytes a hkept', h.bytes a hkept]

theorem Takes.mono (h : Takes limit w w' size changed) (hle : ∀ a, changed a → changed' a)
    (hsize : size = size') : Takes limit w w' size' changed' := by
  refine ⟨hsize ▸ h.heap, h.host, h.grows, h.pages, fun a ha => h.bytes a fun hchanged => ?_⟩
  exact ha (hle a hchanged)

theorem Takes.size_le (h : Takes limit w w' size changed) : w.memory.size ≤ w'.memory.size :=
  Nat.mul_le_mul_right _ h.grows

/-- As long as memory stays within the limit there is room as before. -/
theorem Roomy.takes (h : Roomy s limit w) (htakes : Takes limit w w' size changed) :
    Roomy s limit w' :=
  ⟨h.limit_lt, htakes.pages, fun pages hlt => h.grants pages (Nat.lt_of_le_of_lt htakes.grows hlt)⟩

/-- A block within the limit is taken. -/
theorem Roomy.reserve (h : Roomy s limit w) {size : UInt32} {fuel : Nat} (hfuel : maxPages < fuel)
    (hfits : w.heap.toNat + size.toNat ≤ limit * Wasm.pageSize) :
    ∃ w', Source.reserve s fuel size w = .ok (w.heap, w') ∧
      Takes limit w w' size.toNat (fun _ => False) ∧ w'.heap.toNat ≤ w'.memory.size := by
  obtain ⟨memory, hrun, htop, hextends, hpages, hend⟩ :=
    Source.reserve_of_granted h.limit_lt h.grants h.pages hfits hfuel
  refine ⟨_, hrun, ⟨htop, rfl, hextends.pageCount_le, hpages, fun a _ => hextends.byte_eq a⟩, ?_⟩
  show (w.heap + size).toNat ≤ memory.size
  omega

/-- A word is written inside the memory. -/
theorem storeWord_takes {address : Nat} {word : UInt32} (hin : address + 4 ≤ w.memory.size)
    (hpages : w.memory.pageCount ≤ limit) :
    ∃ w', Source.storeWord address word w = .ok ((), w') ∧
      Takes limit w w' 0 (fun a => address ≤ a ∧ a < address + 4) ∧
      w'.memory.word? address = some word := by
  have hcontains : w.memory.contains address 4 = true := by
    rw [Memory.contains, decide_eq_true_eq]
    exact hin
  refine ⟨{ w with memory := w.memory.setWord address word }, ?_, ⟨rfl, rfl, ?_, ?_, ?_⟩, ?_⟩
  · rw [Source.storeWord, Memory.setWord?, if_pos hcontains]
  · exact Nat.le_of_eq (Memory.pageCount_setWord _ _ _).symm
  · exact (Memory.pageCount_setWord _ _ _).symm ▸ hpages
  · intro a ha
    exact Memory.byte_setWord_of_disjoint word hin (by omega)
  · exact Memory.word?_setWord _ word hin

end Takes

/-! ### Evaluation

The induction over a literal. -/

section Evaluation

variable {x : Interpreter} {limit : Nat} {scopes : Scopes}

/-- The size of a block that has an address is a word. -/
theorem toNat_blockSize {items : List Expr} {n : Nat}
    (h : n + Expr.blockSize items < addressSpace) :
    (UInt32.ofNat (Expr.blockSize items)).toNat = Expr.blockSize items :=
  UInt32.toNat_ofNat_of_lt' (Nat.lt_of_le_of_lt (Nat.le_add_left _ _) h)

/-- What comes before the items of an array: its block is taken and gets its length. -/
theorem Roomy.header {s : Setting} {w : World} (h : Roomy s limit w) {fuel : Nat}
    (hfuel : maxPages < fuel) {items : List Expr}
    (hfits : w.heap.toNat + Expr.blockSize items ≤ limit * Wasm.pageSize) :
    ∃ w₁ w₂, Source.reserve s fuel (.ofNat (Expr.blockSize items)) w = .ok (w.heap, w₁) ∧
      Source.storeWord w.heap.toNat (.ofNat items.length) w₁ = .ok ((), w₂) ∧
      Takes limit w w₂ (Expr.blockSize items)
        (fun a => w.heap.toNat ≤ a ∧ a < w.heap.toNat + cellSize) ∧
      w₂.memory.word? w.heap.toNat = some (.ofNat items.length) ∧
      w₂.heap.toNat ≤ w₂.memory.size := by
  have hblock : (UInt32.ofNat (Expr.blockSize items)).toNat = Expr.blockSize items := by
    apply @toNat_blockSize _ w.heap.toNat
    have hlimit := h.limit_lt
    simp only [maxPages, Wasm.pageSize, addressSpace] at *
    omega
  have hcell : 4 ≤ Expr.blockSize items := by
    rw [Expr.blockSize, cellSize]
    omega
  obtain ⟨w₁, hreserve, htakes, hend⟩ := h.reserve hfuel (by rw [hblock]; exact hfits)
  rw [hblock] at htakes
  have hheap := htakes.heap
  obtain ⟨w₂, hstore, htakes', hlength⟩ := @storeWord_takes limit w₁ w.heap.toNat
    (.ofNat items.length) (by omega) htakes.pages
  have hheap' := htakes'.heap
  have hsize := htakes'.size_le
  refine ⟨w₁, w₂, hreserve, hstore, ?_, hlength, by omega⟩
  exact (htakes.trans htakes').mono (fun a ha => ha.resolve_left id) (Nat.add_zero _)

mutual

/-- A literal for which there is room takes its blocks one behind the other and is in memory then.
The induction is on the literal: the items of an array are evaluated in the world that its own block
leaves, and what they write is apart from the cells that are already filled. -/
theorem evalExpr_laid (hfuel : maxPages < x.fuel) : (e : Expr) → e.isNested → {w : World} →
    Roomy x.setting limit w → w.heap.toNat + e.literalSize ≤ limit * Wasm.pageSize →
    ∃ type w', Source.evalExpr x scopes e w = .ok (⟨type, [.i32 (e.place w.heap.toNat)]⟩, w') ∧
      Takes limit w w' e.literalSize
        (fun a => w.heap.toNat ≤ a ∧ a < w.heap.toNat + e.literalSize) ∧
      Laid w'.memory e w.heap.toNat
  | .integer location value, _, w, hroom, _ => by
    refine ⟨.i32, w, rfl, ?_, trivial⟩
    rw [Expr.literalSize_integer]
    exact ⟨rfl, rfl, Nat.le_refl _, hroom.pages, fun _ _ => rfl⟩
  | .array location items, hnested, w, hroom, hfits => by
    obtain ⟨-, hitems⟩ := Expr.isNested_array_iff.mp hnested
    rw [Expr.literalSize_array] at hfits ⊢
    have hcells : Expr.blockSize items = 4 + items.length * 4 := by
      rw [Expr.blockSize, cellSize]
      omega
    obtain ⟨w₁, w₂, hreserve, hstore, htakes, hlength, hend⟩ :=
      @Roomy.header limit _ w hroom _ hfuel items (by omega)
    have hheap := htakes.heap
    have hcell : w.heap.toNat + (1 + items.length) * cellSize = w₂.heap.toNat := by
      rw [cellSize]
      omega
    obtain ⟨types, w', hitemsRun, htakes', hlaid⟩ := evalItems_laid hfuel items
      (Expr.areNested_iff.mpr hitems) w.heap 1 (hroom.takes htakes) (by omega)
      (Nat.le_of_eq hcell) (by rw [hcell]; exact hend)
    rw [hcell, hheap, Nat.one_mul, cellSize] at htakes'
    refine ⟨.array (types.headD .none), w', ?_, ?_, ?_, ?_⟩
    · rw [Source.evalExpr, ← Expr.blockSize, Source.bind_of_ok hreserve, Source.bind_of_ok hstore,
        Source.bind_of_ok hitemsRun, Expr.place_array, UInt32.ofNat_toNat]
      rfl
    · refine (htakes.trans htakes').mono (fun a ha => ?_) rfl
      rw [cellSize] at ha
      omega
    · refine Wasm.Memory.word?_frame hlength htakes'.size_le fun a hle hlt => htakes'.bytes a ?_
      omega
    · rw [Nat.one_mul, hheap] at hlaid
      exact hlaid
  | .float .., hnested, _, _, _ | .string .., hnested, _, _, _ | .identifier .., hnested, _, _, _
  | .unary .., hnested, _, _, _ | .binary .., hnested, _, _, _ | .call .., hnested, _, _, _
  | .member .., hnested, _, _, _ | .index .., hnested, _, _, _ | .tuple .., hnested, _, _, _ => by
    cases hnested

theorem evalItems_laid (hfuel : maxPages < x.fuel) : (items : List Expr) → Expr.areNested items →
    {w : World} → (block : UInt32) → (cell : Nat) → Roomy x.setting limit w →
    w.heap.toNat + (items.map Expr.literalSize).sum ≤ limit * Wasm.pageSize →
    block.toNat + (cell + items.length) * cellSize ≤ w.heap.toNat →
    block.toNat + (cell + items.length) * cellSize ≤ w.memory.size →
    ∃ types w', Source.evalItems x scopes block cell items w = .ok (types, w') ∧
      Takes limit w w' (items.map Expr.literalSize).sum
        (fun a => block.toNat + cell * cellSize ≤ a ∧
            a < block.toNat + (cell + items.length) * cellSize ∨
          w.heap.toNat ≤ a ∧ a < w.heap.toNat + (items.map Expr.literalSize).sum) ∧
      LaidItems w'.memory items (block.toNat + cell * cellSize) w.heap.toNat
  | [], _, w, _, _, hroom, _, _, _ =>
    ⟨[], w, rfl, ⟨rfl, rfl, Nat.le_refl _, hroom.pages, fun _ _ => rfl⟩, trivial⟩
  | e :: es, hnested, w, block, cell, hroom, hfits, hheap, hsize => by
    rw [Expr.areNested, Bool.and_eq_true] at hnested
    rw [List.map_cons, List.sum_cons] at hfits ⊢
    rw [List.length_cons, cellSize] at hheap hsize
    obtain ⟨type, w₁, he, htakes₁, hlaid₁⟩ := evalExpr_laid hfuel e hnested.1 hroom (by omega)
    have hheap₁ := htakes₁.heap
    have hsize₁ := htakes₁.size_le
    -- its place is written into the cell after the item is laid out
    obtain ⟨w₂, hstore, htakes₂, hword⟩ := @storeWord_takes limit w₁
      (block.toNat + cell * cellSize) (e.place w.heap.toNat) (by rw [cellSize]; omega) htakes₁.pages
    have hheap₂ := htakes₂.heap
    have hsize₂ := htakes₂.size_le
    obtain ⟨types, w', hes, htakes', hlaid⟩ := evalItems_laid hfuel es hnested.2 block
      (cell + 1) ((hroom.takes htakes₁).takes htakes₂) (by omega) (by rw [cellSize]; omega)
      (by rw [cellSize]; omega)
    -- writing the cell does not move the heap
    have hstart : w₂.heap.toNat = w.heap.toNat + e.literalSize := by omega
    rw [hstart] at htakes' hlaid
    rw [cellSize] at htakes' htakes₂ hword hstore hlaid
    refine ⟨type :: types, w', ?_, ?_, ?_, ?_, ?_⟩
    · rw [Source.evalItems, Source.bind_of_ok he, Source.store, Source.cellWord, cellSize,
        Source.bind_of_ok hstore, Source.bind_of_ok hes]
      rfl
    · refine (htakes₁.trans (htakes₂.trans htakes')).mono (fun a ha => ?_) (by omega)
      rw [List.length_cons, cellSize]
      omega
    · rw [cellSize]
      refine Wasm.Memory.word?_frame hword htakes'.size_le fun a hle hlt => htakes'.bytes a ?_
      omega
    · -- neither the cell nor the later items touch what the item took
      refine Laid.frame (Nat.le_trans hsize₂ htakes'.size_le) e (fun a hle hlt => ?_) hlaid₁
      rw [htakes'.bytes a (by omega), htakes₂.bytes a (by omega)]
    · rw [Nat.succ_mul, ← Nat.add_assoc] at hlaid
      exact hlaid

end

/-! ### The last page

Where the size of the memory wraps around. -/

/-- The end of the pages that a memory can have without having all there are. -/
def lastPage : Nat :=
  (maxPages - 1) * Wasm.pageSize

/-- A number of bytes behind the heap do not take the last page, and memory does not have it. -/
def SparesLastPage (w : World) (size : Nat) : Prop :=
  w.memory.pageCount < maxPages ∧ w.heap.toNat + size ≤ lastPage

/-- A memory that has all pages looks empty, so no block is found to fit, and one that reaches into
the last page fits no other memory. -/
theorem reserve_traps {s : Setting} {w : World}
    (hgrants : ∀ pages, s.grantsPages pages → pages ≤ maxPages) {size : UInt32} {fuel : Nat}
    (hfuel : maxPages < fuel) (hcount : w.memory.pageCount ≤ maxPages) (hpos : 0 < size.toNat)
    (hfits : w.heap.toNat + size.toNat < addressSpace) (hspares : ¬SparesLastPage w size.toNat) :
    Source.reserve s fuel size w = .error (.trap .unreachable) := by
  rcases Source.reserve_cases hgrants size hcount fuel with
    ⟨htrap, -⟩ | ⟨-, hless⟩ | ⟨memory, -, hgrown⟩
  · exact htrap
  · omega
  · -- a block that was made lies below the top of the memory, and spares its last page
    have htop := UInt32.le_iff_toNat_le.mp hgrown.top_le
    rw [Source.byteCount_toNat hgrown.pageCount_le, toNat_top, Nat.mod_eq_of_lt hfits] at htop
    have hle := hgrown.pageCount_le
    have hgrows := hgrown.grows.pageCount_le
    refine absurd ⟨?_, ?_⟩ hspares
    all_goals
      simp only [lastPage, Wasm.Memory.size_eq, maxPages, Wasm.pageSize, addressSpace] at *
      omega

mutual

/-- A literal that does not spare the last page traps, though all pages before it are granted. The
induction finds the first block that reaches too far: the items before it are evaluated as if there
were enough room. -/
theorem evalExpr_traps (hfuel : maxPages < x.fuel)
    (hpages : ∀ pages, x.setting.grantsPages pages → pages ≤ maxPages) : (e : Expr) → e.isNested →
    {w : World} →
    (∀ pages, w.memory.pageCount < pages → pages < maxPages → x.setting.grantsPages pages) →
    w.memory.pageCount ≤ maxPages → 0 < e.literalSize →
    w.heap.toNat + e.literalSize < addressSpace → ¬SparesLastPage w e.literalSize →
    Source.evalExpr x scopes e w = .error (.trap .unreachable)
  | .integer .., _, _, _, _, hpos, _, _ => by
    simp at hpos
  | .array location items, hnested, w, hgrants, hcount, _, hfits, hspares => by
    obtain ⟨-, hitems⟩ := Expr.isNested_array_iff.mp hnested
    rw [Expr.literalSize_array] at hfits hspares
    have hblock : (UInt32.ofNat (Expr.blockSize items)).toNat = Expr.blockSize items := by
      apply @toNat_blockSize _ w.heap.toNat
      omega
    have hcells : Expr.blockSize items = 4 + items.length * 4 := by
      rw [Expr.blockSize, cellSize]
      omega
    rw [Source.evalExpr, ← Expr.blockSize]
    by_cases hheader : SparesLastPage w (Expr.blockSize items)
    · -- the block of the array itself spares the last page, so one of an item does not
      obtain ⟨hless, hbelow⟩ := hheader
      have hroom : Roomy x.setting (maxPages - 1) w := by
        refine ⟨by decide, Nat.le_sub_one_of_lt hless, fun pages hlt hle => hgrants pages hlt ?_⟩
        exact Nat.lt_of_le_pred (by decide) hle
      have hover : lastPage <
          w.heap.toNat + (Expr.blockSize items + (items.map Expr.literalSize).sum) :=
        Nat.lt_of_not_le fun hle => hspares ⟨hless, hle⟩
      obtain ⟨w₁, w₂, hreserve, hstore, htakes, -, hend⟩ :=
        @Roomy.header _ _ w hroom _ hfuel items hbelow
      have hheap := htakes.heap
      have hcell : w.heap.toNat + (1 + items.length) * cellSize = w₂.heap.toNat := by
        rw [cellSize]
        omega
      rw [Source.bind_of_ok hreserve, Source.bind_of_ok hstore]
      refine Source.bind_of_error (evalItems_traps hfuel hpages items
        (Expr.areNested_iff.mpr hitems) w.heap 1 (hroom.takes htakes) (by omega) (by omega)
        (by omega) (Nat.le_of_eq hcell) (by rw [hcell]; exact hend))
    · refine Source.bind_of_error (reserve_traps hpages hfuel hcount (by omega) (by omega) ?_)
      rw [hblock]
      exact hheader
  | .float .., hnested, _, _, _, _, _, _ | .string .., hnested, _, _, _, _, _, _
  | .identifier .., hnested, _, _, _, _, _, _ | .unary .., hnested, _, _, _, _, _, _
  | .binary .., hnested, _, _, _, _, _, _ | .call .., hnested, _, _, _, _, _, _
  | .member .., hnested, _, _, _, _, _, _ | .index .., hnested, _, _, _, _, _, _
  | .tuple .., hnested, _, _, _, _, _, _ => by
    cases hnested

theorem evalItems_traps (hfuel : maxPages < x.fuel)
    (hpages : ∀ pages, x.setting.grantsPages pages → pages ≤ maxPages) : (items : List Expr) →
    Expr.areNested items → {w : World} → (block : UInt32) → (cell : Nat) →
    Roomy x.setting (maxPages - 1) w → w.heap.toNat ≤ lastPage →
    w.heap.toNat + (items.map Expr.literalSize).sum < addressSpace →
    lastPage < w.heap.toNat + (items.map Expr.literalSize).sum →
    block.toNat + (cell + items.length) * cellSize ≤ w.heap.toNat →
    block.toNat + (cell + items.length) * cellSize ≤ w.memory.size →
    Source.evalItems x scopes block cell items w = .error (.trap .unreachable)
  | [], _, _, _, _, _, hbelow, _, hover, _, _ => by
    rw [List.map_nil, List.sum_nil] at hover
    omega
  | e :: es, hnested, w, block, cell, hroom, hbelow, hfits, hover, hheap, hsize => by
    rw [Expr.areNested, Bool.and_eq_true] at hnested
    rw [List.map_cons, List.sum_cons] at hfits hover
    rw [List.length_cons, cellSize] at hheap hsize
    rw [Source.evalItems]
    -- the first item that does not spare the last page traps, the ones before it are laid out
    by_cases hfirst : w.heap.toNat + e.literalSize ≤ lastPage
    · obtain ⟨type, w₁, he, htakes₁, -⟩ := evalExpr_laid hfuel e hnested.1 hroom hfirst
      have hheap₁ := htakes₁.heap
      have hsize₁ := htakes₁.size_le
      obtain ⟨w₂, hstore, htakes₂, -⟩ := @storeWord_takes (maxPages - 1) w₁
        (block.toNat + cell * cellSize) (e.place w.heap.toNat) (by rw [cellSize]; omega)
        htakes₁.pages
      have hheap₂ := htakes₂.heap
      have hsize₂ := htakes₂.size_le
      rw [Source.bind_of_ok he, Source.store, Source.cellWord, Source.bind_of_ok hstore]
      refine Source.bind_of_error (evalItems_traps hfuel hpages es hnested.2 block (cell + 1)
        ((hroom.takes htakes₁).takes htakes₂) (by omega) (by omega) (by omega)
        (by rw [cellSize]; omega) (by rw [cellSize]; omega))
    · refine Source.bind_of_error (evalExpr_traps hfuel hpages e hnested.1 ?_ ?_ (by omega)
        (by omega) fun hspares => hfirst hspares.2)
      · exact fun pages hlt hlt' => hroom.grants pages hlt (Nat.le_sub_one_of_lt hlt')
      · exact Nat.le_trans hroom.pages (Nat.sub_le _ _)

end

end Evaluation

end WasmCompiler
