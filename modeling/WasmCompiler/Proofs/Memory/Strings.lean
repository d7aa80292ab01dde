import WasmCompiler.Proofs.Effects
import WasmCompiler.Proofs.Text.Utf8
import WasmCompiler.Proofs.Typing.Tables
import WasmCompiler.Lowering.Program
import WasmCompiler.Wasm.Machine.Instance

/-!
# String literals in memory

The records of a pool lie one after another, from the start of the pool to its limit
(`StringPool.Laid`). Interning a text puts its record at the limit, so no two records overlap, and
loading one of them leaves those before it as they are. The memory of a program has room for all of
them: reading the record of a literal gives the literal back (`string_of_interned`).

The steps are `Laid.intern?` for the pool, `exists_foldlM_load?` for the memory, and
`string_of_record` for what the host reads.
-/

namespace WasmCompiler

open Wasm (Memory pageSize pagesThrough)

/-! ### Bytes of a memory

Reading several bytes, and what it makes of those that were written. -/

namespace Wasm.Memory

variable {m m' : Memory} {address count : Nat} {bytes : List UInt8}

/-- Bytes are read if all of them are inside the memory. -/
theorem bytes?_eq_some_iff :
    m.bytes? address count = some bytes ↔
      address + count ≤ m.size ∧
        (List.range count).map (fun k => m.byte (address + k)) = bytes := by
  simp [bytes?, contains]

/-- What is read depends on the bytes there and on nothing else. -/
theorem bytes?_congr (hsize : m.size ≤ m'.size)
    (hbyte : ∀ k < count, m'.byte (address + k) = m.byte (address + k))
    (h : m.bytes? address count = some bytes) : m'.bytes? address count = some bytes := by
  rw [bytes?_eq_some_iff] at h ⊢
  obtain ⟨hin, rfl⟩ := h
  refine ⟨Nat.le_trans hin hsize, List.map_congr_left fun k hk => ?_⟩
  exact hbyte k (List.mem_range.mp hk)

/-- The bytes apart from those that are written stay as they are. -/
theorem byte_setBytes_of_disjoint {other : Nat} (h : address + bytes.length ≤ m.size)
    (hother : other < address ∨ address + bytes.length ≤ other) :
    (m.setBytes address bytes).byte other = m.byte other := by
  induction bytes generalizing m address with
  | nil => rfl
  | cons b bs ih =>
    rw [List.length_cons] at h hother
    rw [setBytes, ih (by rw [size_setByte]; omega) (by omega),
      byte_setByte_of_ne (by omega) _ (by omega)]

/-- Bytes that were written are read back. -/
theorem bytes?_setBytes (h : address + bytes.length ≤ m.size) :
    (m.setBytes address bytes).bytes? address bytes.length = some bytes := by
  induction bytes generalizing m address with
  | nil => simpa [bytes?_eq_some_iff] using h
  | cons b bs ih =>
    rw [List.length_cons] at h
    have hrest : address + 1 + bs.length ≤ (m.setByte address b).size := by
      rw [size_setByte]
      omega
    -- the later bytes are written behind the first one
    have hfirst : (m.setBytes address (b :: bs)).byte address = b := by
      rw [setBytes, byte_setBytes_of_disjoint hrest (.inl (Nat.lt_succ_self _)),
        byte_setByte_self (by omega)]
    obtain ⟨-, hbytes⟩ := bytes?_eq_some_iff.mp (ih hrest)
    rw [bytes?_eq_some_iff, size_setBytes]
    refine ⟨h, ?_⟩
    rw [List.length_cons, List.range_succ_eq_map, List.map_cons, List.map_map, Nat.add_zero, hfirst]
    congr 1
    refine Eq.trans (List.map_congr_left fun k _ => ?_) hbytes
    show (m.setBytes address (b :: bs)).byte (address + (k + 1)) = _
    rw [setBytes, Nat.add_right_comm, Nat.add_assoc address]

/-- Bytes that stand one after another are read in two parts. -/
theorem bytes?_of_append {first second : List UInt8}
    (h : m.bytes? address (first ++ second).length = some (first ++ second)) :
    m.bytes? address first.length = some first ∧
      m.bytes? (address + first.length) second.length = some second := by
  have hsplit : (List.range (first ++ second).length).map (fun k => m.byte (address + k)) =
      (List.range first.length).map (fun k => m.byte (address + k)) ++
        (List.range second.length).map fun k => m.byte (address + first.length + k) := by
    rw [List.length_append, List.range_add, List.map_append, List.map_map]
    simp only [Function.comp_def, Nat.add_assoc]
  simp only [bytes?_eq_some_iff, hsplit] at h ⊢
  obtain ⟨hin, hbytes⟩ := h
  obtain ⟨hfirst, hsecond⟩ := List.append_inj hbytes (by simp)
  rw [List.length_append] at hin
  exact ⟨⟨by omega, hfirst⟩, by omega, hsecond⟩

/-- The four bytes of a length make up the length. -/
theorem joinBytes_littleEndian32 {n : Nat} (hn : n < addressSpace) {a b c d : UInt8}
    (h : [a, b, c, d] = littleEndian32 n) : joinBytes a b c d = .ofNat n := by
  simp only [littleEndian32, List.cons.injEq, and_true] at h
  obtain ⟨rfl, rfl, rfl, rfl⟩ := h
  simp only [joinBytes, UInt8.toNat_ofNat']
  congr 1
  simp only [addressSpace] at hn
  omega

/-- The length at the head of a record is read back. -/
theorem word?_of_littleEndian32 {n : Nat} (hn : n < addressSpace)
    (h : m.bytes? address 4 = some (littleEndian32 n)) : m.word? address = some (.ofNat n) := by
  obtain ⟨hin, hbytes⟩ := bytes?_eq_some_iff.mp h
  have hcontains : m.contains address 4 = true := by simpa [contains] using hin
  rw [word?, if_pos hcontains]
  exact congrArg some (joinBytes_littleEndian32 hn hbytes)

/-- A record that is in memory is read as its text. -/
theorem string_of_record {text : String} (hlength : (stringRecord text).length < addressSpace)
    (h : m.bytes? address (stringRecord text).length = some (stringRecord text)) :
    m.string address = .ok text := by
  let encoded := Text.Utf8.encode text
  have hsplit : (stringRecord text).length = 4 + encoded.length := by
    rw [stringRecord, List.length_append]
    rfl
  have hencoded : encoded.length < addressSpace := by omega
  obtain ⟨hhead, hbody⟩ := bytes?_of_append h
  have htoNat : (UInt32.ofNat encoded.length).toNat = encoded.length :=
    UInt32.toNat_ofNat_of_lt' hencoded
  -- the word in front says how many bytes of text follow
  have hread : m.bytes? (address + 4) (UInt32.ofNat encoded.length).toNat = some encoded := by
    rw [htoNat]
    exact hbody
  simp only [Memory.string, word?_of_littleEndian32 hencoded hhead, hread]
  exact congrArg Except.ok (Text.Utf8.decodeLossy_encode text)

/-! ### Loading segments

Segments are loaded one after another. -/

/-- The bytes of a segment are in the memory, where they belong. -/
def Holds (m : Memory) (s : Segment) : Prop :=
  m.bytes? s.offset s.bytes.length = some s.bytes

/-- Segments that lie one after another inside a memory can be loaded. Afterwards the memory holds
them all, and the bytes before them are the same. -/
theorem exists_foldlM_load? {segments : List Segment} {base : Nat}
    (hin : ∀ s ∈ segments, base ≤ s.offset ∧ s.offset + s.bytes.length ≤ m.size)
    (hapart : segments.Pairwise fun s s' => s.offset + s.bytes.length ≤ s'.offset) :
    ∃ m', segments.foldlM load? m = some m' ∧ m'.size = m.size ∧
      (∀ s ∈ segments, m'.Holds s) ∧ ∀ address < base, m'.byte address = m.byte address := by
  -- each segment is loaded behind all those before it
  induction segments generalizing m base with
  | nil => exact ⟨m, rfl, rfl, by simp, fun _ _ => rfl⟩
  | cons s segments ih =>
    rw [List.forall_mem_cons] at hin
    rw [List.pairwise_cons] at hapart
    obtain ⟨⟨hbase, hend⟩, hin⟩ := hin
    obtain ⟨hafter, hapart⟩ := hapart
    have hload : m.load? s = some (m.setBytes s.offset s.bytes) := by
      rw [load?, if_pos (by simpa [contains] using hend)]
    obtain ⟨m', hfold, hsize, hholds, hbefore⟩ :=
      @ih (m.setBytes s.offset s.bytes) (s.offset + s.bytes.length)
        (fun s' hs' => ⟨hafter s' hs', by rw [size_setBytes]; exact (hin s' hs').2⟩) hapart
    rw [size_setBytes] at hsize
    refine ⟨m', ?_, hsize, ?_, ?_⟩
    · rw [List.foldlM_cons, hload]
      exact hfold
    · refine List.forall_mem_cons.mpr ⟨?_, hholds⟩
      refine bytes?_congr (Nat.le_of_eq (by rw [size_setBytes, hsize])) (fun k hk => ?_)
        (bytes?_setBytes hend)
      exact hbefore _ (by omega)
    · intro address haddress
      rw [hbefore address (by omega), byte_setBytes_of_disjoint hend (.inl (by omega))]

end Wasm.Memory

/-! ### The records of a pool

Where records are, and that they are read as their texts. -/

namespace StringPool

variable {pool pool' : StringPool} {text : String} {offset base : Nat}

/-- What interning does: a known literal has its record, a new one gets one at the limit. -/
theorem intern?_cases (h : pool.intern? text = some (offset, pool')) :
    pool.offset? text = some offset ∧ pool' = pool ∨
      offset = pool.limit ∧ pool.limitAfter text < addressSpace ∧
        pool' = ⟨pool.entries ++ [(text, pool.limit)], pool.limitAfter text⟩ := by
  unfold intern? at h
  split at h
  · rename_i known hknown
    obtain ⟨rfl, rfl⟩ := Prod.mk.inj (Option.some.inj h)
    exact .inl ⟨hknown, rfl⟩
  · split at h
    · rename_i hlimit
      obtain ⟨rfl, rfl⟩ := Prod.mk.inj (Option.some.inj h)
      exact .inr ⟨rfl, hlimit, rfl⟩
    · cases h

/-- The records lie one after another, from an address on, and end at the limit. -/
structure Laid (base : Nat) (pool : StringPool) : Prop where
  base_le : base ≤ pool.limit
  limit_lt : pool.limit < addressSpace
  inside : ∀ s ∈ pool.segments, base ≤ s.offset ∧ s.offset + s.bytes.length ≤ pool.limit
  apart : pool.segments.Pairwise fun s s' => s.offset + s.bytes.length ≤ s'.offset

/-- A pool without records ends where it begins. -/
theorem laid_empty (start : Nat) : Laid (empty start).limit (empty start) := by
  refine ⟨Nat.le_refl _, ?_, by simp [segments, empty], .nil⟩
  unfold empty
  split
  · assumption
  · decide

/-- The step of the layout: the new record lies behind all others. -/
theorem Laid.intern? (hpool : pool.Laid base) (h : pool.intern? text = some (offset, pool')) :
    pool'.Laid base := by
  obtain ⟨-, rfl⟩ | ⟨-, hlimit, rfl⟩ := intern?_cases h
  · exact hpool
  have hend : pool.limit + (stringRecord text).length ≤ pool.limitAfter text := le_alignCell _
  have hbase := hpool.base_le
  -- a new record is laid behind all the others
  have hsegments : segments ⟨pool.entries ++ [(text, pool.limit)], pool.limitAfter text⟩ =
      pool.segments ++ [⟨pool.limit, stringRecord text⟩] := by
    simp [segments]
  refine ⟨?_, hlimit, ?_, ?_⟩
  · show base ≤ pool.limitAfter text
    omega
  · intro s hs
    show base ≤ s.offset ∧ s.offset + s.bytes.length ≤ pool.limitAfter text
    rw [hsegments, List.mem_append, List.mem_singleton] at hs
    rcases hs with hs | rfl
    · have := hpool.inside s hs
      omega
    · exact ⟨hbase, hend⟩
  · rw [hsegments, List.pairwise_append]
    refine ⟨hpool.apart, List.pairwise_singleton _ _, fun s hs s' hs' => ?_⟩
    obtain rfl := List.mem_singleton.mp hs'
    exact (hpool.inside s hs).2

/-- The memory before a program runs: as many pages of zeros as the pool needs, with its records in
them. -/
def memory? (pool : StringPool) : Option Memory :=
  pool.segments.foldlM Memory.load? (.zero (pagesThrough pool.limit))

/-- The pages up to an address hold the address. -/
theorem lt_pagesThrough (address : Nat) : address < pagesThrough address * pageSize := by
  simp only [pagesThrough, pageSize]
  omega

/-- The memory of a pool holds its records, and zeros before them. -/
theorem Laid.exists_memory? (h : pool.Laid base) :
    ∃ m, pool.memory? = some m ∧ m.size = pagesThrough pool.limit * pageSize ∧
      (∀ s ∈ pool.segments, m.Holds s) ∧ ∀ address < base, m.byte address = 0 := by
  have hlimit := lt_pagesThrough pool.limit
  have hin : ∀ s ∈ pool.segments, base ≤ s.offset ∧
      s.offset + s.bytes.length ≤ (Memory.zero (pagesThrough pool.limit)).size := by
    intro s hs
    have := h.inside s hs
    rw [Memory.size_zero]
    omega
  obtain ⟨m, hm, hsize, hholds, hbefore⟩ := Memory.exists_foldlM_load? hin h.apart
  refine ⟨m, hm, hsize.trans (Memory.size_zero _), hholds, fun address haddress => ?_⟩
  rw [hbefore address haddress, Memory.byte_zero]

/-- A literal of the pool is read from every memory that holds the records, also through the word
that a program has of its address. -/
theorem Laid.string (h : pool.Laid base) {m : Memory} (hm : ∀ s ∈ pool.segments, m.Holds s)
    (hoffset : pool.offset? text = some offset) :
    (UInt32.ofNat offset).toNat = offset ∧ m.string offset = .ok text := by
  have hmem : (⟨offset, stringRecord text⟩ : Segment) ∈ pool.segments :=
    List.mem_map.mpr ⟨(text, offset), mem_of_lookup hoffset, rfl⟩
  have hinside : offset + (stringRecord text).length ≤ pool.limit := (h.inside _ hmem).2
  have hlimit := h.limit_lt
  have hoffset : offset < addressSpace := by omega
  exact ⟨UInt32.toNat_ofNat_of_lt' hoffset, Memory.string_of_record (by omega) (hm _ hmem)⟩

end StringPool

/-! ### Interning into a table

Any number of texts, some of which may find no room. -/

namespace SymbolTable

/-- Interns texts one after another, the later ones also when an earlier one has no room. Gives
the outcome of each and the table after all of them. -/
def internAll (t : SymbolTable) : List String → List (Option Nat) × SymbolTable
  | [] => ([], t)
  | text :: texts =>
    let (offset?, t') := t.internString text
    let (offsets, t'') := t'.internAll texts
    (offset? :: offsets, t'')

/-- A text is put into the pool, or nothing changes. -/
theorem internString_cases (t : SymbolTable) (text : String) :
    (∃ offset pool, t.strings.intern? text = some (offset, pool) ∧
      t.internString text = (some offset, { t with strings := pool })) ∨
      t.internString text = (none, t) := by
  unfold internString
  cases h : t.strings.intern? text with
  | none => exact .inr rfl
  | some found => exact .inl ⟨found.1, found.2, rfl, rfl⟩

/-- By induction over the texts, those without room among them. -/
theorem laid_internAll {base : Nat} (t : SymbolTable) (texts : List String)
    (h : t.strings.Laid base) : (t.internAll texts).2.strings.Laid base := by
  induction texts generalizing t with
  | nil => exact h
  | cons text texts ih =>
    obtain ⟨offset, pool, hintern, heq⟩ | heq := t.internString_cases text
    · simp only [internAll, heq]
      exact ih _ (h.intern? hintern)
    · simp only [internAll, heq]
      exact ih t h

/-- Texts that are interned later leave the addresses of those before them as they are. -/
theorem stringOffset?_internAll {t : SymbolTable} {text : String} {offset : Nat}
    (texts : List String) (h : t.stringOffset? text = some offset) :
    (t.internAll texts).2.stringOffset? text = some offset := by
  induction texts generalizing t with
  | nil => exact h
  | cons other texts ih =>
    obtain ⟨k, pool, hintern, heq⟩ | heq := t.internString_cases other
    · simp only [internAll, heq]
      exact ih (StringPool.offset?_intern?_of_eq_some hintern h)
    · simp only [internAll, heq]
      exact ih h

/-- The address that interning gave is the one that is found in the end. -/
theorem stringOffset?_of_mem_zip {t : SymbolTable} {texts : List String} {text : String}
    {offset : Nat} (h : (text, some offset) ∈ texts.zip (t.internAll texts).1) :
    (t.internAll texts).2.stringOffset? text = some offset := by
  induction texts generalizing t with
  | nil => cases h
  | cons other texts ih =>
    obtain ⟨k, pool, hintern, heq⟩ | heq := t.internString_cases other
    · simp only [internAll, heq, List.zip_cons_cons, List.mem_cons, Prod.mk.injEq,
        Option.some.injEq] at h ⊢
      rcases h with ⟨rfl, rfl⟩ | h
      · exact stringOffset?_internAll texts (StringPool.offset?_of_intern? hintern)
      · exact ih h
    · simp only [internAll, heq, List.zip_cons_cons, List.mem_cons, Prod.mk.injEq, reduceCtorEq,
        and_false, false_or] at h ⊢
      exact ih h

end SymbolTable

/-- A descriptor is arranged by the pool of the table at the end of lowering. -/
theorem initialMemory?_of_generate {program : Program} {t t' : SymbolTable} {d : Wasm.Descriptor}
    (h : generate program t = .ok d t') :
    d.segments = t'.strings.segments ∧ d.heapBase = t'.heapBase ∧
      d.memoryPages = pagesThrough d.heapBase ∧
      (d.toModule memoryName).initialMemory? = t'.strings.memory? := by
  unfold generate at h
  obtain ⟨_, t₁, -, h⟩ := EStateM.bind_eq_ok_iff.mp h
  obtain ⟨checked, t₂, -, h⟩ := EStateM.bind_eq_ok_iff.mp h
  obtain ⟨functions, t₃, -, h⟩ := EStateM.bind_eq_ok_iff.mp h
  split at h
  · obtain ⟨t₄, t₅, hget, h⟩ := EStateM.bind_eq_ok_iff.mp h
    obtain ⟨rfl, rfl⟩ := EStateM.get_eq_ok_iff.mp hget
    obtain ⟨rfl, rfl⟩ := EStateM.pure_eq_ok_iff.mp h
    exact ⟨rfl, rfl, rfl, rfl⟩
  · obtain ⟨_, _, hthrow, -⟩ := EStateM.bind_eq_ok_iff.mp h
    exact absurd hthrow EStateM.throw_ne_ok

/-- **String literals survive from source to host.** Whatever texts are interned one after another
into a fresh table, those for which there is room have records in the memory with which a program
begins, and the host reads the text from the record. The records and the base of the heap lie
inside that memory, which is the one of every descriptor that is made with these literals. -/
theorem string_of_interned (start : Nat) (texts : List String) :
    let (offsets, t) := (SymbolTable.empty start).internAll texts
    ∃ memory, t.strings.memory? = some memory ∧ t.heapBase < memory.size ∧
      (∀ s ∈ t.strings.segments, s.offset + s.bytes.length ≤ memory.size) ∧
      (∀ text offset, (text, some offset) ∈ texts.zip offsets →
        t.stringOffset? text = some offset ∧ (UInt32.ofNat offset).toNat = offset ∧
          memory.string offset = .ok text) ∧
      ∀ program t₀ d t', generate program t₀ = .ok d t' → t'.strings = t.strings →
        d.segments = t.strings.segments ∧ d.heapBase = t.heapBase ∧
          (d.toModule memoryName).initialMemory? = some memory := by
  have hlaid := SymbolTable.laid_internAll (.empty start) texts (StringPool.laid_empty start)
  have hfound {text : String} {offset : Nat} :=
    @SymbolTable.stringOffset?_of_mem_zip (.empty start) texts text offset
  generalize (SymbolTable.empty start).internAll texts = result at hlaid hfound ⊢
  obtain ⟨offsets, t⟩ := result
  obtain ⟨memory, hmemory, hsize, hholds, -⟩ := hlaid.exists_memory?
  have hlimit := StringPool.lt_pagesThrough t.strings.limit
  rw [← hsize] at hlimit
  refine ⟨memory, hmemory, hlimit, ?_, ?_, ?_⟩
  · intro s hs
    exact Nat.le_trans (hlaid.inside s hs).2 (Nat.le_of_lt hlimit)
  · intro text offset hmem
    exact ⟨hfound hmem, hlaid.string hholds (hfound hmem)⟩
  · intro program t₀ d t' hgenerate hstrings
    obtain ⟨hsegments, hbase, -, hinitial⟩ := initialMemory?_of_generate hgenerate
    rw [hsegments, hbase, hinitial, SymbolTable.heapBase, hstrings]
    exact ⟨rfl, rfl, hmemory⟩

end WasmCompiler
