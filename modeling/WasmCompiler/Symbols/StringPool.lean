import WasmCompiler.DataType
import WasmCompiler.Text.Utf8

/-!
# The string pool

String literals live in linear memory as records: the length of the text in bytes, as four bytes
with the lowest first, and then the bytes. A pool gives each distinct literal one record, in the
order in which they come, each record beginning at a multiple of the cell size. A literal that
would end at or beyond the end of the address space is refused.

The view of a pool is `offset?`: a literal that was interned has the address that was given
(`offset?_of_intern?`), and those before it keep theirs (`offset?_intern?_of_eq_some`).
-/

namespace WasmCompiler

/-- The number of addresses. -/
def addressSpace : Nat := 0x100000000

/-- The least multiple of the cell size that is not below an address. -/
def alignCell (address : Nat) : Nat :=
  (address + (cellSize - 1)) / cellSize * cellSize

/-- An aligned address is a multiple of the cell size. -/
theorem cellSize_dvd_alignCell (address : Nat) : cellSize ∣ alignCell address :=
  Nat.dvd_mul_left _ _

theorem le_alignCell (address : Nat) : address ≤ alignCell address := by
  simp only [alignCell, cellSize]
  omega

theorem alignCell_lt (address : Nat) : alignCell address < address + cellSize := by
  simp only [alignCell, cellSize]
  omega

/-- Aligned addresses stay where they are. -/
theorem alignCell_eq_self_iff {address : Nat} :
    alignCell address = address ↔ cellSize ∣ address := by
  simp only [alignCell, cellSize]
  omega

/-- Four bytes, the lowest first. -/
def littleEndian32 (n : Nat) : List UInt8 :=
  [.ofNat n, .ofNat (n / 0x100), .ofNat (n / 0x10000), .ofNat (n / 0x1000000)]

/-- The record of a string literal. -/
def stringRecord (text : String) : List UInt8 :=
  let bytes := Text.Utf8.encode text
  littleEndian32 bytes.length ++ bytes

/-- Bytes to be placed at an address. -/
structure Segment where
  offset : Nat
  bytes : List UInt8
deriving DecidableEq, Repr, Inhabited

structure StringPool where
  /-- The literals with the addresses of their records, in order. -/
  entries : List (String × Nat)
  /-- The first free address. -/
  limit : Nat
deriving DecidableEq, Repr, Inhabited

namespace StringPool

/-- A pool without literals. It starts at the first multiple of the cell size from `start` on, or
at the last one there is. -/
def empty (start : Nat) : StringPool :=
  { entries := []
    limit := if alignCell start < addressSpace then alignCell start else addressSpace - cellSize }

/-- The address of a literal's record. -/
def offset? (pool : StringPool) (text : String) : Option Nat :=
  pool.entries.lookup text

/-- Where the next record would leave the first free address. -/
def limitAfter (pool : StringPool) (text : String) : Nat :=
  alignCell (pool.limit + (stringRecord text).length)

/-- The address of a literal's record, and the pool with that record in it. -/
def intern? (pool : StringPool) (text : String) : Option (Nat × StringPool) :=
  match pool.offset? text with
  | some offset => some (offset, pool)
  | none =>
    if pool.limitAfter text < addressSpace then
      some (pool.limit, ⟨pool.entries ++ [(text, pool.limit)], pool.limitAfter text⟩)
    else none

/-- The records of the pool, in order. -/
def segments (pool : StringPool) : List Segment :=
  pool.entries.map fun (text, offset) => ⟨offset, stringRecord text⟩

/-! ### Interning and the view through addresses -/

/-- A literal that has been interned has the address that was given. -/
theorem offset?_of_intern? {pool pool' : StringPool} {text : String} {offset : Nat}
    (h : pool.intern? text = some (offset, pool')) : pool'.offset? text = some offset := by
  unfold intern? at h
  split at h
  · -- a known literal keeps its address
    rename_i known hknown
    obtain ⟨rfl, rfl⟩ := Prod.mk.inj (Option.some.inj h)
    exact hknown
  · -- a new literal is found at the end of the entries
    rename_i hnew
    split at h
    · obtain ⟨rfl, rfl⟩ := Prod.mk.inj (Option.some.inj h)
      rw [offset?] at hnew ⊢
      simp [List.lookup_append, hnew]
    · simp at h

/-- Interning keeps the addresses of the literals before it. -/
theorem offset?_intern?_of_eq_some {pool pool' : StringPool} {text other : String} {offset k : Nat}
    (h : pool.intern? text = some (offset, pool')) (hother : pool.offset? other = some k) :
    pool'.offset? other = some k := by
  unfold intern? at h
  split at h
  · obtain ⟨_, rfl⟩ := Prod.mk.inj (Option.some.inj h)
    exact hother
  · split at h
    · obtain ⟨_, rfl⟩ := Prod.mk.inj (Option.some.inj h)
      rw [offset?] at hother ⊢
      simp [List.lookup_append, hother]
    · simp at h

end StringPool

end WasmCompiler
