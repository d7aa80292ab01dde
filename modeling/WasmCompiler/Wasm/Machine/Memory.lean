import WasmCompiler.Wasm.Descriptor

/-!
# Linear memory

Memory is an array of pages, all of one size. New pages are zero and share one representation, so
a memory that is large and mostly untouched costs little. Words are stored with their lowest byte
first. Reading and writing fail outside the memory.

The view of a memory is its `size` and its `byte` at each address: every operation has an equation
through them. From these, a word that was written is read back (`word?_setWord`), and the words
apart from it stay as they are (`word?_setWord_of_disjoint`).
-/

namespace WasmCompiler.Wasm

/-- One page. -/
abbrev Page := Vector UInt8 pageSize

namespace Page

/-- A page of zeros. -/
def zero : Page :=
  Vector.replicate pageSize 0

theorem place_lt (address : Nat) : address % pageSize < pageSize :=
  Nat.mod_lt _ (by decide)

/-- The byte at an address, counted from the beginning of any page. -/
def byte (page : Page) (address : Nat) : UInt8 :=
  have := place_lt address
  page[address % pageSize]

/-- Changes the byte at an address. -/
def setByte (page : Page) (address : Nat) (value : UInt8) : Page :=
  page.set (address % pageSize) value (place_lt address)

@[simp] theorem byte_zero (address : Nat) : byte zero address = 0 := by
  simp [byte, zero]

theorem byte_setByte (page : Page) (address : Nat) (value : UInt8) (other : Nat) :
    byte (setByte page address value) other =
      if address % pageSize = other % pageSize then value else byte page other := by
  simp only [byte, setByte, Vector.getElem_set]

end Page

structure Memory where
  pages : Array Page

namespace Memory

/-- A number of pages of zeros. -/
def zero (count : Nat) : Memory :=
  ⟨Array.replicate count Page.zero⟩

/-- The size in pages. -/
def pageCount (m : Memory) : Nat :=
  m.pages.size

/-- The size in bytes. -/
def size (m : Memory) : Nat :=
  m.pageCount * pageSize

/-- Adds pages of zeros. -/
def grow (m : Memory) (count : Nat) : Memory :=
  ⟨m.pages ++ Array.replicate count Page.zero⟩

/-- The byte at an address; zero outside the memory. -/
def byte (m : Memory) (address : Nat) : UInt8 :=
  match m.pages[address / pageSize]? with
  | some page => Page.byte page address
  | none => 0

/-- Changes the byte at an address, if there is one. -/
def setByte (m : Memory) (address : Nat) (value : UInt8) : Memory :=
  ⟨m.pages.modify (address / pageSize) (Page.setByte · address value)⟩

/-- Whether some bytes from an address on are inside the memory. -/
def contains (m : Memory) (address count : Nat) : Bool :=
  address + count ≤ m.size

/-- Four bytes as a word, the lowest first. -/
def joinBytes (a b c d : UInt8) : UInt32 :=
  .ofNat (a.toNat + 256 * (b.toNat + 256 * (c.toNat + 256 * d.toNat)))

/-- The word at an address. -/
def word? (m : Memory) (address : Nat) : Option UInt32 :=
  if m.contains address 4 then
    some (joinBytes (m.byte address) (m.byte (address + 1)) (m.byte (address + 2))
      (m.byte (address + 3)))
  else none

/-- Writes a word at an address, which has to be inside the memory. -/
def setWord (m : Memory) (address : Nat) (value : UInt32) : Memory :=
  (((m.setByte address value.toUInt8).setByte (address + 1) (value >>> 8).toUInt8).setByte
    (address + 2) (value >>> 16).toUInt8).setByte (address + 3) (value >>> 24).toUInt8

/-- Writes a word at an address. -/
def setWord? (m : Memory) (address : Nat) (value : UInt32) : Option Memory :=
  if m.contains address 4 then some (m.setWord address value) else none

/-- The bytes from an address on. -/
def bytes? (m : Memory) (address count : Nat) : Option (List UInt8) :=
  if m.contains address count then some ((List.range count).map fun k => m.byte (address + k))
  else none

/-- Writes bytes from an address on. -/
def setBytes (m : Memory) : (address : Nat) → List UInt8 → Memory
  | _, [] => m
  | address, b :: bs => (m.setByte address b).setBytes (address + 1) bs

/-- Writes the bytes of a segment, which have to lie inside the memory. -/
def load? (m : Memory) (s : Segment) : Option Memory :=
  if m.contains s.offset s.bytes.length then some (m.setBytes s.offset s.bytes) else none

/-! ### Sizes -/

@[simp] theorem size_zero (count : Nat) : (zero count).size = count * pageSize := by
  simp [zero, size, pageCount]

@[simp] theorem size_setByte (m : Memory) (address : Nat) (value : UInt8) :
    (m.setByte address value).size = m.size := by
  simp [setByte, size, pageCount]

@[simp] theorem size_setWord (m : Memory) (address : Nat) (value : UInt32) :
    (m.setWord address value).size = m.size := by
  simp [setWord]

@[simp] theorem size_setBytes (m : Memory) (address : Nat) (bytes : List UInt8) :
    (m.setBytes address bytes).size = m.size := by
  induction bytes generalizing m address with
  | nil => rfl
  | cons b bs ih => rw [setBytes, ih, size_setByte]

/-- An address is inside the memory if its page is. -/
theorem lt_size_iff (m : Memory) (address : Nat) :
    address < m.size ↔ address / pageSize < m.pages.size := by
  rw [Nat.div_lt_iff_lt_mul (by decide), size, pageCount]

/-! ### Bytes -/

@[simp] theorem byte_zero (count address : Nat) : (zero count).byte address = 0 := by
  simp only [byte, zero, Array.getElem?_replicate]
  split
  · rename_i page h
    have hpage : page = Page.zero := by
      split at h
      · exact (Option.some.inj h).symm
      · simp at h
    rw [hpage, Page.byte_zero]
  · rfl

/-- Growing keeps every byte, and the new ones are zero. -/
@[simp] theorem byte_grow (m : Memory) (count address : Nat) :
    (m.grow count).byte address = m.byte address := by
  by_cases h : address / pageSize < m.pages.size
  · simp only [byte, grow, Array.getElem?_append_left h]
  · -- past the old pages there were no bytes, and there are zeros now
    have hle : m.pages.size ≤ address / pageSize := Nat.le_of_not_lt h
    simp only [byte, grow, Array.getElem?_append_right hle, Array.getElem?_eq_none hle,
      Array.getElem?_replicate]
    by_cases hcount : address / pageSize - m.pages.size < count
    · rw [if_pos hcount]
      exact Page.byte_zero address
    · rw [if_neg hcount]

/-- Two addresses in one page differ by their places in it. -/
theorem eq_of_div_eq_of_mod_eq {a b : Nat} (hdiv : a / pageSize = b / pageSize)
    (hmod : a % pageSize = b % pageSize) : a = b := by
  rw [← Nat.div_add_mod a pageSize, ← Nat.div_add_mod b pageSize, hdiv, hmod]

/-- Writing a byte changes that byte and no other. -/
theorem byte_setByte {m : Memory} {address : Nat} (h : address < m.size) (value : UInt8)
    (other : Nat) :
    (m.setByte address value).byte other = if other = address then value else m.byte other := by
  simp only [byte, setByte, Array.getElem?_modify]
  by_cases hpage : address / pageSize = other / pageSize
  · -- both addresses lie in one page, which is there
    have hlt : other / pageSize < m.pages.size := by
      rw [← hpage]
      exact (lt_size_iff m address).mp h
    rw [if_pos hpage, Array.getElem?_eq_getElem hlt]
    simp only [Option.map_some, Page.byte_setByte]
    by_cases hplace : address % pageSize = other % pageSize
    · rw [if_pos hplace, if_pos (eq_of_div_eq_of_mod_eq hpage hplace).symm]
    · rw [if_neg hplace, if_neg fun he => hplace (by rw [he])]
  · -- another page keeps all its bytes
    rw [if_neg hpage, if_neg fun he => hpage (by rw [he])]

theorem byte_setByte_self {m : Memory} {address : Nat} (h : address < m.size) (value : UInt8) :
    (m.setByte address value).byte address = value := by
  rw [byte_setByte h, if_pos rfl]

theorem byte_setByte_of_ne {m : Memory} {address other : Nat} (h : address < m.size)
    (value : UInt8) (hne : other ≠ address) :
    (m.setByte address value).byte other = m.byte other := by
  rw [byte_setByte h, if_neg hne]

/-! ### Words -/

/-- The four bytes of a word make up the word. -/
theorem joinBytes_bytes (w : UInt32) :
    joinBytes w.toUInt8 (w >>> 8).toUInt8 (w >>> 16).toUInt8 (w >>> 24).toUInt8 = w := by
  have h := w.toNat_lt
  have h8 : (w >>> 8).toUInt8.toNat = w.toNat / 2 ^ 8 % 256 := by
    simp [Nat.shiftRight_eq_div_pow]
  have h16 : (w >>> 16).toUInt8.toNat = w.toNat / 2 ^ 16 % 256 := by
    simp [Nat.shiftRight_eq_div_pow]
  have h24 : (w >>> 24).toUInt8.toNat = w.toNat / 2 ^ 24 % 256 := by
    simp [Nat.shiftRight_eq_div_pow]
  apply UInt32.toNat_inj.mp
  rw [joinBytes, UInt32.toNat_ofNat', UInt32.toNat_toUInt8, h8, h16, h24]
  omega

/-- The bytes outside a word that is written stay as they are. -/
theorem byte_setWord_of_disjoint {m : Memory} {address other : Nat} (value : UInt32)
    (h : address + 4 ≤ m.size) (hother : other < address ∨ address + 4 ≤ other) :
    (m.setWord address value).byte other = m.byte other := by
  unfold setWord
  rw [byte_setByte_of_ne (by simp only [size_setByte]; omega) _ (by omega),
    byte_setByte_of_ne (by simp only [size_setByte]; omega) _ (by omega),
    byte_setByte_of_ne (by simp only [size_setByte]; omega) _ (by omega),
    byte_setByte_of_ne (by omega) _ (by omega)]

/-- A word that was written is read back. -/
theorem word?_setWord (m : Memory) {address : Nat} (value : UInt32) (h : address + 4 ≤ m.size) :
    (m.setWord address value).word? address = some value := by
  have hcontains : (m.setWord address value).contains address 4 := by
    simpa [contains] using h
  rw [word?, if_pos hcontains]
  simp [setWord, byte_setByte, show address < m.size by omega,
    show address + 1 < m.size by omega, show address + 2 < m.size by omega,
    show address + 3 < m.size by omega, joinBytes_bytes]

/-- A word apart from the one that is written stays as it is. -/
theorem word?_setWord_of_disjoint {m : Memory} {address other : Nat} (value : UInt32)
    (h : address + 4 ≤ m.size) (hother : other + 4 ≤ address ∨ address + 4 ≤ other) :
    (m.setWord address value).word? other = m.word? other := by
  simp only [word?, contains, size_setWord]
  iterate 4 rw [byte_setWord_of_disjoint value h (by omega)]
  rfl

/-- A word is written if all of it is inside the memory. -/
theorem setWord?_eq_some_iff {m m' : Memory} {address : Nat} {value : UInt32} :
    m.setWord? address value = some m' ↔
      address + 4 ≤ m.size ∧ m' = m.setWord address value := by
  simp only [setWord?, contains]
  by_cases h : address + 4 ≤ m.size
  · simp [h, eq_comm]
  · simp [h]

end Memory

end WasmCompiler.Wasm
