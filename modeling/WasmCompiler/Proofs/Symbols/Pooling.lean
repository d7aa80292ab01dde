import Mathlib.Data.List.Nodup
import Mathlib.Order.Bounds.Defs
import WasmCompiler.Proofs.Memory.Strings
import WasmCompiler.Proofs.Symbols.Declared

/-!
# Histories of a string pool

A pool is asked for one text after another, some of them again and some of them without room.
`StringPool.Packed` says where its records lie after any such history and `StringPool.Collects` for
which texts there are records. One call keeps both (`Packed.intern?`, `entries_intern?`), so every
sequence of calls does, also where it comes close to the last address.

`internAll_packs` states the result of a whole history, with the exact condition under which a text
gets no address.

The limit is the least aligned address behind all records. A text that finds no room changes
nothing, so a shorter one may still find some after it.
-/

namespace WasmCompiler

/-- Aligning goes up to the next multiple of the cell size and no further. -/
theorem isLeast_alignCell (address : Nat) :
    IsLeast {a | cellSize ∣ a ∧ address ≤ a} (alignCell address) := by
  refine ⟨⟨cellSize_dvd_alignCell address, le_alignCell address⟩, ?_⟩
  rintro a ⟨⟨k, rfl⟩, hle⟩
  simp only [alignCell, cellSize] at hle ⊢
  omega

/-- A record is as long as its text, and four bytes for the length. -/
theorem length_stringRecord (text : String) :
    (stringRecord text).length = 4 + (Text.Utf8.encode text).length := by
  rw [stringRecord, List.length_append]
  rfl

namespace StringPool

variable {pool pool' : StringPool} {start offset : Nat} {text : String}

/-! ### Where the records lie

Each record begins in the cell behind the one in which the record before it ends. -/

/-- The end of the last record, or where records begin if there is none. -/
def recordsEnd (start : Nat) (pool : StringPool) : Nat :=
  match pool.segments.getLast? with
  | some s => s.offset + s.bytes.length
  | none => start

/-- The records lie in aligned places, and the pool ends with the cell in which the last of them
ends. -/
structure Packed (start : Nat) (pool : StringPool) : Prop extends Laid start pool where
  aligned : ∀ s ∈ pool.segments, cellSize ∣ s.offset
  limit_least : IsLeast {a | cellSize ∣ a ∧ pool.recordsEnd start ≤ a} pool.limit

/-- A new entry adds one record behind the others. -/
theorem segments_concat (entries : List (String × Nat)) (text : String) (offset limit : Nat) :
    segments ⟨entries ++ [(text, offset)], limit⟩ =
      segments ⟨entries, offset⟩ ++ [⟨offset, stringRecord text⟩] := by
  simp [segments]

/-- Before the first text a pool ends where it starts. -/
theorem packed_empty (haligned : cellSize ∣ start) (hstart : start < addressSpace) :
    (empty start).Packed start := by
  have hself : alignCell start = start := alignCell_eq_self_iff.mpr haligned
  have hlimit : (empty start).limit = start := by
    simp only [empty, hself, if_pos hstart]
  have hlaid : Laid start (empty start) := by
    have := laid_empty start
    rwa [hlimit] at this
  have hleast : IsLeast {a | cellSize ∣ a ∧ start ≤ a} (empty start).limit := by
    rw [hlimit, ← hself]
    simpa only [hself] using isLeast_alignCell start
  exact ⟨hlaid, by simp [segments, empty], hleast⟩

/-- The step of every history: a text that gets an address leaves the records packed. -/
theorem Packed.intern? (h : pool.Packed start)
    (hintern : pool.intern? text = some (offset, pool')) : pool'.Packed start := by
  have hlaid := h.toLaid.intern? hintern
  obtain ⟨-, rfl⟩ | ⟨-, -, rfl⟩ := intern?_cases hintern
  · exact h
  refine ⟨hlaid, fun s hs => ?_, ?_⟩
  · rw [segments_concat] at hs
    rcases List.mem_append.mp hs with hs | hs
    · exact h.aligned s hs
    · -- the new record stands at the old limit, which is aligned
      obtain rfl := List.mem_singleton.mp hs
      exact h.limit_least.1.1
  · rw [recordsEnd, segments_concat, List.getLast?_concat]
    exact isLeast_alignCell _

/-- Every record has at least the bytes of its length, so no two begin at one address. -/
theorem Laid.ascending (h : pool.Laid start) :
    pool.segments.Pairwise fun s s' => s.offset < s'.offset := by
  refine h.apart.imp_of_mem fun hs _ hapart => ?_
  obtain ⟨entry, -, rfl⟩ := List.mem_map.mp hs
  have hlength := length_stringRecord entry.1
  dsimp only at hapart ⊢
  omega

/-! ### Which texts have a record

A text is known by its entry, and the entry is made when it is first asked for. -/

/-- A literal is entered at the end, unless it is there: each has the place of its first
occurrence. -/
theorem entries_intern? {texts : List String} (h : pool.intern? text = some (offset, pool'))
    (htexts : pool.entries.map (·.1) = texts.eraseDups) :
    pool'.entries.map (·.1) = (texts ++ [text]).eraseDups := by
  -- the texts with an offset are those that were added
  have hknown : (pool.offset? text).isSome ↔ text ∈ texts := by
    rw [offset?, SymbolTable.lookup_isSome_iff, htexts, List.mem_eraseDups]
  rw [List.eraseDups_append, ← htexts]
  unfold intern? at h
  split at h
  · rename_i known hfound
    obtain ⟨-, rfl⟩ := Prod.mk.inj (Option.some.inj h)
    have hmem : text ∈ texts := hknown.mp (by simp [hfound])
    simp [List.removeAll, hmem]
  · rename_i hnew
    split at h
    · obtain ⟨-, rfl⟩ := Prod.mk.inj (Option.some.inj h)
      have hmem : text ∉ texts := by simp [← hknown, hnew]
      simp [List.removeAll, hmem, List.eraseDups_cons]
    · cases h

/-- There is one record for each of some texts, in the order in which they first come, and no two
texts share an address. -/
structure Collects (texts : List String) (pool : StringPool) : Prop where
  records : pool.segments.map (·.bytes) = texts.eraseDups.map stringRecord
  known : ∀ text, text ∈ texts ↔ ∃ offset, pool.offset? text = some offset
  record : ∀ text offset, pool.offset? text = some offset →
    ⟨offset, stringRecord text⟩ ∈ pool.segments
  injective : ∀ text text' offset, pool.offset? text = some offset →
    pool.offset? text' = some offset → text = text'

/-- It is enough to know the texts of the entries in order: the records are theirs, and addresses
ascend. -/
theorem collects_of_entries {texts : List String} (hpool : pool.Laid start)
    (h : pool.entries.map (·.1) = texts.eraseDups) : pool.Collects texts := by
  have hentry {text : String} {offset : Nat} (hoffset : pool.offset? text = some offset) :
      (text, offset) ∈ pool.entries := mem_of_lookup hoffset
  refine ⟨?_, fun text => ?_, fun text offset hoffset => ?_,
    fun text text' offset htext htext' => ?_⟩
  · rw [← h, segments, List.map_map, List.map_map]
    rfl
  · rw [← List.mem_eraseDups, ← h, ← SymbolTable.lookup_isSome_iff, Option.isSome_iff_exists]
    rfl
  · exact List.mem_map.mpr ⟨(text, offset), hentry hoffset, rfl⟩
  · -- the addresses ascend, so each belongs to one entry
    have hascending := hpool.ascending
    rw [segments, List.pairwise_map] at hascending
    have hnodup : (pool.entries.map (·.2)).Nodup :=
      List.pairwise_map.mpr (hascending.imp Nat.ne_of_lt)
    have hsame := List.inj_on_of_nodup_map hnodup (hentry htext) (hentry htext') rfl
    exact congrArg Prod.fst hsame

end StringPool

/-! ### Histories

By induction over the texts, from the front. -/

namespace SymbolTable

/-- The texts of a history that got an address, in order. -/
def addressed (texts : List String) (offsets : List (Option Nat)) : List String :=
  (texts.zip offsets).filterMap fun (text, offset?) => offset?.map fun _ => text

/-- A text without room changes nothing, and any other keeps the records packed. -/
theorem packed_internAll {start : Nat} (t : SymbolTable) (texts : List String)
    (h : t.strings.Packed start) : (t.internAll texts).2.strings.Packed start := by
  induction texts generalizing t with
  | nil => exact h
  | cons text texts ih =>
    obtain ⟨offset, pool, hintern, heq⟩ | heq := t.internString_cases text
    · simp only [internAll, heq]
      exact ih _ (h.intern? hintern)
    · simp only [internAll, heq]
      exact ih t h

/-- The entries are those from before and the texts that got an address, each where it first
comes. -/
theorem entries_internAll {t : SymbolTable} {before : List String} (texts : List String)
    (h : t.strings.entries.map (·.1) = before.eraseDups) :
    (t.internAll texts).2.strings.entries.map (·.1) =
      (before ++ addressed texts (t.internAll texts).1).eraseDups := by
  induction texts generalizing t before with
  | nil => simpa [internAll, addressed] using h
  | cons text texts ih =>
    obtain ⟨offset, pool, hintern, heq⟩ | heq := t.internString_cases text
    · simp only [internAll, heq, addressed, List.zip_cons_cons, List.filterMap_cons]
      have hstep := StringPool.entries_intern? hintern h
      have hrest := @ih { t with strings := pool } _ hstep
      rw [hrest, List.append_assoc]
      rfl
    · simp only [internAll, heq, addressed, List.zip_cons_cons, List.filterMap_cons]
      exact ih h

/-- What a call does in any table: a known text has its old address, a new one the first free
address if the cell in which its record ends is below the last address. A call that fails changes
nothing. -/
theorem internString_eq (t : SymbolTable) (text : String) :
    match t.stringOffset? text with
    | some offset => t.internString text = (some offset, t)
    | none =>
      if alignCell (t.heapBase + 4 + (Text.Utf8.encode text).length) < addressSpace then
        (t.internString text).1 = some t.heapBase
      else t.internString text = (none, t) := by
  -- a record is a word for the length and the bytes of the text
  have hlimit : alignCell (t.heapBase + 4 + (Text.Utf8.encode text).length) =
      t.strings.limitAfter text := by
    rw [heapBase, StringPool.limitAfter, length_stringRecord, Nat.add_assoc]
  rw [hlimit]
  unfold internString StringPool.intern? stringOffset?
  cases t.strings.offset? text with
  | some offset => rfl
  | none =>
    dsimp only
    by_cases hroom : t.strings.limitAfter text < addressSpace
    · simp only [if_pos hroom]
      rfl
    · simp only [if_neg hroom]

end SymbolTable

/-- **The string pool over any history.** Whatever texts are interned one after another from an
aligned address on, known, new or without room: the records ascend from there without overlap, each
in an aligned place, and the pool ends with the first cell behind the last of them, below the last
address. There is one record for each text that got an address, no two texts share one, and the
next call, for any text, fails only if the text is new and its record would reach into the last cell
or further. -/
theorem internAll_packs {start : Nat} (haligned : cellSize ∣ start) (hstart : start < addressSpace)
    (texts : List String) :
    let (offsets, t) := (SymbolTable.empty start).internAll texts
    (t.strings.segments.Pairwise fun s s' => s.offset < s'.offset) ∧
      t.strings.Packed start ∧
      t.strings.Collects (SymbolTable.addressed texts offsets) ∧
      ∀ text,
        match t.stringOffset? text with
        | some offset => t.internString text = (some offset, t)
        | none =>
          if alignCell (t.heapBase + 4 + (Text.Utf8.encode text).length) < addressSpace then
            (t.internString text).1 = some t.heapBase
          else t.internString text = (none, t) := by
  have hpacked := SymbolTable.packed_internAll (.empty start) texts
    (StringPool.packed_empty haligned hstart)
  have hentries := @SymbolTable.entries_internAll (.empty start) [] texts rfl
  exact ⟨hpacked.ascending, hpacked, StringPool.collects_of_entries hpacked.toLaid hentries,
    SymbolTable.internString_eq _⟩

/-- Close to the last address: behind two records the end of a third would fit, but not the cell in
which it ends. -/
theorem internAll_packs_last_cells :
    let texts := ["abcd", "", "x", "abcd", "", "y"]
    let (offsets, t) := (SymbolTable.empty 0xffffffec).internAll texts
    cellSize ∣ 0xffffffec ∧ 0xffffffec < addressSpace ∧
      offsets = [some 0xffffffec, some 0xfffffff4, none, some 0xffffffec, some 0xfffffff4, none] ∧
      t.heapBase = 0xfffffff8 ∧ t.strings.Packed 0xffffffec ∧
      t.strings.Collects ["abcd", "", "abcd", ""] ∧ (t.internString "x").1 = none := by
  have haligned : cellSize ∣ 0xffffffec := by decide
  have hstart : 0xffffffec < addressSpace := by decide
  obtain ⟨-, hpacked, hcollects, -⟩ :=
    internAll_packs haligned hstart ["abcd", "", "x", "abcd", "", "y"]
  exact ⟨haligned, hstart, by rfl, by rfl, hpacked, hcollects, by rfl⟩

end WasmCompiler
