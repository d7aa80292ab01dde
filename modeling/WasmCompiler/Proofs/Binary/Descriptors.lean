import WasmCompiler.Proofs.Binary.Decoding
import WasmCompiler.Proofs.Validation.Module

/-!
# Descriptors are recovered from their binary form

The binary form of a descriptor refers to signatures by number and writes the locals of a function
as runs. Both can be undone: the numbers lead into a table without repetition, which holds the
signature that was meant, and the runs are written out again. So the module that is read back says
everything that the descriptor says (`decode?_encode_toModule`), as long as the format can hold its
numbers (`Descriptor.Fits`).

`recovered_toModule` is the part about numbers, with no bytes in it, and `decode?_encode` of
`Binary.Decoding` the part about bytes.
-/

namespace WasmCompiler.Wasm

/-- Each signature is entered once. -/
theorem nodup_distinctTypes (types : List FuncType) : (distinctTypes types).Nodup := by
  -- the fold starts anywhere, as long as what is seen has no duplicates
  have hfold (seen : List FuncType) (hseen : seen.Nodup) :
      (types.foldl (fun seen t => if seen.contains t then seen else seen ++ [t]) seen).Nodup := by
    induction types generalizing seen with
    | nil => exact hseen
    | cons t types ih =>
      rw [List.foldl_cons]
      apply ih
      split
      · exact hseen
      · rename_i hnew
        have hnot : t ∉ seen := by simpa using hnew
        refine List.nodup_append.mpr ⟨hseen, List.pairwise_singleton _ t, ?_⟩
        rintro other hother u hu rfl
        obtain rfl := List.mem_singleton.mp hu
        exact hnot hother
  exact hfold [] .nil

/-- A signature of the table has a number in range. -/
theorem typeIndex_lt {type : FuncType} {table : List FuncType} (h : type ∈ table) :
    typeIndex table type < table.length :=
  (List.getElem?_eq_some_iff.mp (getElem?_typeIndex h)).1

namespace Descriptor

variable {d : Descriptor} {memoryName : String}

/-- The counts, the sizes and the numbers of a descriptor are such as the format can hold. -/
structure Fits (d : Descriptor) (memoryName : String) : Prop where
  sections : (d.toModule memoryName).SectionsFit
  functions : d.imports.length + d.functions.length < 2 ^ 32
  locals : ∀ f ∈ d.functions, f.locals.length < 2 ^ 32
  bodies : ∀ f ∈ d.functions, Instr.FitsAll f.body
  segments : ∀ s ∈ d.segments, s.offset < 2 ^ 32
  heapBase : d.heapBase < 2 ^ 32
  memoryPages : d.memoryPages < 2 ^ 32

theorem import_mem_typeTable {i : Import} (h : i ∈ d.imports) : i.type ∈ d.typeTable :=
  mem_distinctTypes.mpr (List.mem_append_left _ (List.mem_map_of_mem h))

theorem function_mem_typeTable {f : Function} (h : f ∈ d.functions) : f.type ∈ d.typeTable :=
  mem_distinctTypes.mpr (List.mem_append_right _ (List.mem_map_of_mem h))

/-- What is exported is a function, or the one memory. -/
theorem index_lt_of_mem_exportEntries {entry : ExportEntry}
    (h : entry ∈ d.exportEntries memoryName) :
    entry.target.index < d.imports.length + d.functions.length ∨ entry.target.index = 0 := by
  rcases List.mem_append.mp h with h | h
  · split at h
    · obtain rfl := List.mem_singleton.mp h
      exact .inr rfl
    · cases h
  · obtain ⟨-, k, hk, htarget⟩ := mem_exportedFunctions h
    rw [htarget]
    exact .inl (Nat.add_lt_add_left hk _)

/-- A signature takes a byte at least, so the numbers of signatures are not larger than the section
that holds them. -/
theorem Fits.typeIndex_lt (h : d.Fits memoryName) {type : FuncType} (htype : type ∈ d.typeTable) :
    typeIndex d.typeTable type < 2 ^ 32 :=
  calc typeIndex d.typeTable type
    _ < d.typeTable.length := Wasm.typeIndex_lt htype
    _ ≤ (Binary.vector Binary.funcType d.typeTable).length :=
      Binary.length_le_vector Binary.funcType (fun _ => Nat.succ_pos _) _
    _ < 2 ^ 32 := h.sections.types

theorem Fits.toModule (h : d.Fits memoryName) : (d.toModule memoryName).Fits where
  sections := h.sections
  importTypes := by
    intro entry hentry
    obtain ⟨i, hi, rfl⟩ := List.mem_map.mp hentry
    exact h.typeIndex_lt (import_mem_typeTable hi)
  functionTypes := by
    intro type htype
    obtain ⟨f, hf, rfl⟩ := List.mem_map.mp htype
    exact h.typeIndex_lt (function_mem_typeTable hf)
  pages := by
    intro pages hpages
    obtain rfl := List.mem_singleton.mp hpages
    exact h.memoryPages
  targets := by
    intro entry hentry
    -- an entry is a function of the module, or its memory, which has the number zero
    have hfunctions := h.functions
    have hindex := index_lt_of_mem_exportEntries hentry
    omega
  locals := by
    intro code hcode
    obtain ⟨f, hf, rfl⟩ := List.mem_map.mp hcode
    exact h.locals f hf
  bodies := by
    intro code hcode
    obtain ⟨f, hf, rfl⟩ := List.mem_map.mp hcode
    exact h.bodies f hf
  offsets := h.segments

/-- The exports of the functions, each with its number. -/
def functionExports (d : Descriptor) : List ExportEntry :=
  d.functions.zipIdx.filterMap fun (f, k) =>
    if f.exported then some ⟨f.name, .function (d.imports.length + k)⟩ else none

/-- The exported functions with their numbers, from any number on. -/
theorem exportedFunctions_eq (index : Nat) (functions : List Function) (start : Nat) :
    exportedFunctions (index + start) functions =
      (functions.zipIdx start).filterMap fun (f, k) =>
        if f.exported then some ⟨f.name, .function (index + k)⟩ else none := by
  induction functions generalizing start with
  | nil => rfl
  | cons f functions ih =>
    rw [exportedFunctions, Nat.add_assoc, ih, List.zipIdx_cons]
    cases hexported : f.exported <;> simp [hexported]

/-- A module says what a descriptor says: the signatures are those that the numbers lead to. -/
structure Recovered (d : Descriptor) (memoryName : String) (m : Module) : Prop where
  imports : m.imports.map (fun i => (i.module, i.name, m.types[i.type]?)) =
    d.imports.map fun i => (i.module, i.name, some i.type)
  signatures : m.functions.map (m.types[·]?) = d.functions.map (some ·.type)
  codes : m.codes.map (fun c => (c.locals, c.body)) = d.functions.map fun f => (f.locals, f.body)
  entries : m.entries =
    (if d.exportsMemory then [⟨memoryName, .memory 0⟩] else []) ++ d.functionExports
  memories : m.memories = [d.memoryPages]
  globals : m.globals.map (·.toNat) = [d.heapBase]
  segments : m.segments = d.segments
  nodup : m.types.Nodup
  importTypes : ∀ i ∈ m.imports, i.type < m.types.length
  functionTypes : ∀ type ∈ m.functions, type < m.types.length

/-- The numbers lead back to the signatures, by the place of each in a table without repetition. -/
theorem recovered_toModule (hheap : d.heapBase < 2 ^ 32) :
    d.Recovered memoryName (d.toModule memoryName) where
  imports := by
    rw [toModule, List.map_map]
    refine List.map_congr_left fun i hi => ?_
    exact congrArg (i.module, i.name, ·) (getElem?_typeIndex (import_mem_typeTable hi))
  signatures := by
    rw [toModule, List.map_map]
    exact List.map_congr_left fun f hf => getElem?_typeIndex (function_mem_typeTable hf)
  codes := by
    rw [toModule, List.map_map]
    rfl
  entries := congrArg (_ ++ ·) (exportedFunctions_eq d.imports.length d.functions 0)
  memories := rfl
  globals := congrArg ([·]) (UInt32.toNat_ofNat_of_lt' hheap)
  segments := rfl
  nodup := nodup_distinctTypes _
  importTypes := by
    intro entry hentry
    obtain ⟨i, hi, rfl⟩ := List.mem_map.mp hentry
    exact Wasm.typeIndex_lt (import_mem_typeTable hi)
  functionTypes := by
    intro type htype
    obtain ⟨f, hf, rfl⟩ := List.mem_map.mp htype
    exact Wasm.typeIndex_lt (function_mem_typeTable hf)

/-- The binary form of a descriptor is read to its end, and the module that is read says what the
descriptor says. -/
theorem decode?_encode_toModule (h : d.Fits memoryName) :
    ∃ m, Binary.decode? (Binary.encode (d.toModule memoryName)) = some m ∧
      d.Recovered memoryName m :=
  ⟨d.toModule memoryName, Binary.decode?_encode h.toModule, recovered_toModule h.heapBase⟩

/-- Two functions of one signature, locals in two runs, and addresses above `2 ^ 31`. -/
def sample : Descriptor where
  imports := [⟨"env", "print", ⟨[.i32], []⟩⟩]
  functions :=
    [⟨"main", ⟨[], []⟩, [.i32, .i32, .f32], [.block none [.i32Const 0x80000000, .call 0]], true⟩,
      ⟨"show", ⟨[.i32], []⟩, [], [.localGet 0, .branch none [.ret] (some [.ret])], false⟩]
  segments := [⟨0x80000000, [1, 0, 0, 0, 65]⟩]
  heapBase := 0x80000008
  memoryPages := 0x8001
  exportsMemory := true

/-- The sample fits into the format, so it is recovered. -/
theorem decode?_encode_sample :
    ∃ m, Binary.decode? (Binary.encode (sample.toModule "memory")) = some m ∧
      sample.Recovered "memory" m := by
  have hfits : sample.Fits "memory" :=
    { sections := by constructor <;> decide +kernel
      functions := by decide
      locals := by simp [sample]
      bodies := by simp [sample, Instr.FitsAll, Instr.Fits]
      segments := by decide
      heapBase := by decide
      memoryPages := by decide }
  exact decode?_encode_toModule hfits

end Descriptor

end WasmCompiler.Wasm
