import Mathlib.Algebra.Group.Int.Defs
import Mathlib.Algebra.Group.Nat.Defs
import WasmCompiler.Proofs.Text.Utf8
import WasmCompiler.Wasm.Binary.Decode

/-!
# Decoding undoes encoding

`Reads r bytes value` says that the reader `r` takes exactly `bytes`, whatever follows them, and
gives `value`. There is one lemma for each reader, and the order of the lemmas is that of the
format: numbers, sequences, instructions, the entries of sections, modules.

The format has numbers of 32 bits only. So a module can be written if the size of each section and
every number in it is below `2 ^ 32` (`Module.Fits`); then reading what was written gives the module
(`decode?_encode`).

* `Reads.bind` and `Reads.map` put readers together;
* `reads_unsigned` and `reads_word` are the two forms of numbers, `reads_vector` and
  `reads_sectionOf` the sequences with their lengths in front;
* `readsInstr` is the induction over instructions, which the lemmas on bodies and blocks prepare;
* `reads_code` undoes the runs that locals are written in.
-/

namespace WasmCompiler.Wasm

/-! ### What can be written

Conditions on the numbers of a module, decidable as it is. -/

namespace Instr

mutual

/-- The numbers in an instruction have at most 32 bits. -/
def Fits : Instr → Prop
  | .block _ body | .loop _ body | .branch _ body none => FitsAll body
  | .branch _ body (some alternate) => FitsAll body ∧ FitsAll alternate
  | .br n | .brIf n | .call n | .localGet n | .localSet n | .localTee n | .globalGet n
  | .globalSet n | .load _ n | .store _ n => n < 2 ^ 32
  | _ => True

/-- The numbers in some instructions have at most 32 bits. -/
def FitsAll : List Instr → Prop
  | [] => True
  | i :: is => Fits i ∧ FitsAll is

end

end Instr

/-- The number of what is exported. -/
def ExportTarget.index : ExportTarget → Nat
  | .function index | .memory index => index

/-- The sizes of the sections have at most 32 bits. -/
structure Module.SectionsFit (m : Module) : Prop where
  types : (Binary.vector Binary.funcType m.types).length < 2 ^ 32
  imports : (Binary.vector Binary.importEntry m.imports).length < 2 ^ 32
  functions : (Binary.vector Leb128.unsigned m.functions).length < 2 ^ 32
  memories : (Binary.vector Binary.memory m.memories).length < 2 ^ 32
  globals : (Binary.vector Binary.global m.globals).length < 2 ^ 32
  entries : (Binary.vector Binary.exportEntry m.entries).length < 2 ^ 32
  codes : (Binary.vector Binary.code m.codes).length < 2 ^ 32
  segments : (Binary.vector Binary.segment m.segments).length < 2 ^ 32

/-- The sizes of the sections and all numbers in them have at most 32 bits. -/
structure Module.Fits (m : Module) : Prop where
  sections : m.SectionsFit
  importTypes : ∀ i ∈ m.imports, i.type < 2 ^ 32
  functionTypes : ∀ type ∈ m.functions, type < 2 ^ 32
  pages : ∀ pages ∈ m.memories, pages < 2 ^ 32
  targets : ∀ e ∈ m.entries, e.target.index < 2 ^ 32
  locals : ∀ c ∈ m.codes, c.locals.length < 2 ^ 32
  bodies : ∀ c ∈ m.codes, Instr.FitsAll c.body
  offsets : ∀ s ∈ m.segments, s.offset < 2 ^ 32

namespace Binary

open Leb128 (unsigned signed)

variable {α β : Type}

/-- The reader takes these bytes, whatever follows them, and gives the value. -/
def Reads (r : Reader α) (bytes : List UInt8) (value : α) : Prop :=
  ∀ rest, r (bytes ++ rest) = some (value, rest)

/-! ### Putting readers together

The rules of the monad of readers. -/

section Combining

/-- The second reader begins where the first one ends. -/
theorem Reads.bind_append {r : Reader α} {bytes : List UInt8} {a : α} (h : Reads r bytes a)
    (f : α → Reader β) (rest : List UInt8) : (r >>= f) (bytes ++ rest) = f a rest := by
  show (r (bytes ++ rest) >>= fun p => f p.1 p.2) = _
  rw [h]
  rfl

theorem reads_pure (a : α) : Reads (pure a) [] a :=
  fun _ => rfl

/-- The bytes of two readers are put one after the other. -/
theorem Reads.bind {r : Reader α} {f : α → Reader β} {bytes more : List UInt8} {a : α} {b : β}
    (hr : Reads r bytes a) (hf : Reads (f a) more b) : Reads (r >>= f) (bytes ++ more) b := by
  intro rest
  rw [List.append_assoc, hr.bind_append]
  exact hf rest

/-- What is done with the last value that is read takes no bytes. -/
theorem Reads.map {r : Reader α} {bytes : List UInt8} {a : α} (hr : Reads r bytes a) (f : α → β) :
    Reads (r >>= fun x => pure (f x)) bytes (f a) := by
  intro rest
  rw [hr.bind_append]
  rfl

theorem Reads.mapped {r : Reader α} {bytes : List UInt8} {a : α} (hr : Reads r bytes a)
    (f : α → β) : Reads (f <$> r) bytes (f a) := by
  intro rest
  show (r (bytes ++ rest) >>= fun p => some (f p.1, p.2)) = _
  rw [hr]
  rfl

theorem reads_byte (b : UInt8) : Reads Reader.byte [b] b :=
  fun _ => rfl

theorem reads_guard {p : Prop} [Decidable p] (h : p) : Reads (guard p) [] () := by
  rw [guard, if_pos h]
  exact reads_pure ()

theorem reads_literal (b : UInt8) : Reads (Reader.literal b) [b] () :=
  (reads_byte b).bind (reads_guard rfl)

theorem reads_found {value : Option α} {a : α} (h : value = some a) :
    Reads (Reader.found value) [] a := by
  subst h
  exact reads_pure a

theorem reads_take (bytes : List UInt8) : Reads (Reader.take bytes.length) bytes bytes := by
  intro rest
  have hle : bytes.length ≤ (bytes ++ rest).length := by
    rw [List.length_append]
    omega
  rw [Reader.take, if_pos hle, List.take_left, List.drop_left]

end Combining

/-! ### Numbers

Numbers of variable length and of four bytes. -/

section Numbers

/-- Seven bits go into a byte. -/
theorem length_unsigned_le {n k : Nat} (h : n < 128 ^ (k + 1)) : (unsigned n).length ≤ k + 1 := by
  induction k generalizing n with
  | zero =>
    have hlast : n < 128 := by omega
    rw [unsigned, if_pos hlast]
    exact Nat.le_refl 1
  | succ k ih =>
    rw [unsigned]
    split
    · exact Nat.succ_le_succ (Nat.zero_le _)
    · have hrest : n / 128 < 128 ^ (k + 1) := by
        rw [Nat.div_lt_iff_lt_mul (by decide), ← Nat.pow_succ]
        exact h
      exact Nat.succ_le_succ (ih hrest)

/-- One of the seven bits of the last byte is the sign. -/
theorem length_signed_le {z : Int} {k : Nat} (hmin : -(64 * 128 ^ k) ≤ z)
    (hmax : z < 64 * 128 ^ k) : (signed z).length ≤ k + 1 := by
  induction k generalizing z with
  | zero =>
    have hlast : (z / 128 = 0 ∧ (z % 128).toNat < 64) ∨ (z / 128 = -1 ∧ 64 ≤ (z % 128).toNat) := by
      omega
    unfold signed
    rw [if_pos hlast]
    exact Nat.le_refl 1
  | succ k ih =>
    fun_cases signed z with
    | case1 => exact Nat.succ_le_succ (Nat.zero_le _)
    | case2 =>
      rw [Int.pow_succ] at hmin hmax
      have hrest : (signed (z / 128)).length ≤ k + 1 := ih (by omega) (by omega)
      exact Nat.succ_le_succ hrest

/-- The number fits into as many bytes as the reader takes at most. -/
theorem reads_unsigned {n : Nat} (h : n < 2 ^ 32) : Reads Reader.unsigned (unsigned n) n := by
  intro rest
  have hsize : (unsigned n).length ≤ 5 := length_unsigned_le (Nat.lt_trans h (by decide))
  have hread := Leb128.readUnsigned_unsigned n rest
  have hshort : Leb128.endsWithin Reader.maxNumberSize (unsigned n ++ rest) := by
    rw [(Leb128.takesNumber_of_readUnsigned hread).endsWithin_iff, List.length_append,
      Reader.maxNumberSize]
    omega
  rw [Reader.unsigned, hread]
  show (guard (n < UInt32.size ∧ _) >>= fun _ => some (n, rest)) = _
  rw [guard, if_pos ⟨h, hshort⟩]
  rfl

/-- A word is written as a signed number. -/
theorem reads_word (w : UInt32) : Reads Reader.word (signed w.toInt32.toInt) w := by
  intro rest
  have hmin : Int32.minValue.toInt ≤ w.toInt32.toInt := w.toInt32.minValue_le_toInt
  have hmax : w.toInt32.toInt ≤ Int32.maxValue.toInt := w.toInt32.toInt_le
  have hsize : (signed w.toInt32.toInt).length ≤ 5 :=
    length_signed_le (Int.le_trans (by decide) hmin) (Int.lt_of_le_of_lt hmax (by decide))
  have hread := Leb128.readSigned_signed w.toInt32.toInt rest
  have hshort : Leb128.endsWithin Reader.maxNumberSize (signed w.toInt32.toInt ++ rest) := by
    rw [(Leb128.takesNumber_of_readSigned hread).endsWithin_iff, List.length_append,
      Reader.maxNumberSize]
    omega
  rw [Reader.word, hread]
  show (guard (Int32.minValue.toInt ≤ w.toInt32.toInt ∧ _) >>= fun _ => some (_, rest)) = _
  rw [guard, if_pos ⟨hmin, hmax, hshort⟩, Int32.ofInt_toInt]
  rfl

/-- Four bytes, the lowest first. -/
theorem reads_littleEndian32 (w : UInt32) :
    Reads Reader.littleEndian32 (littleEndian32 w.toNat) w := by
  intro rest
  show some (UInt32.ofNat _, rest) = some (w, rest)
  congr 2
  have hw : w.toNat < 2 ^ 32 := w.toNat_lt
  have hdigits : w.toNat % 256 + 0x100 * (w.toNat / 0x100 % 256) +
      0x10000 * (w.toNat / 0x10000 % 256) + 0x1000000 * (w.toNat / 0x1000000 % 256) = w.toNat := by
    omega
  simp only [UInt8.toNat_ofNat']
  rw [hdigits, UInt32.ofNat_toNat]

end Numbers

/-! ### Sequences of bytes and of items

A length first, and then what was counted. -/

section Sequences

theorem reads_sized {bytes : List UInt8} (h : bytes.length < 2 ^ 32) :
    Reads Reader.sized (sized bytes) bytes :=
  (reads_unsigned h).bind (reads_take bytes)

/-- The content takes exactly the bytes that were counted. -/
theorem reads_sizedOf {content : Reader α} {bytes : List UInt8} {a : α}
    (h : bytes.length < 2 ^ 32) (hcontent : Reads content bytes a) :
    Reads (Reader.sizedOf content) (sized bytes) a := by
  have hall : content bytes = some (a, []) := by
    simpa using hcontent []
  intro rest
  rw [Reader.sizedOf, (reads_sized h).bind_append]
  simp only [hall]
  rfl

/-- A name is its encoding with the length in front, and the encoding is read back. -/
theorem reads_name {text : String} (h : (Text.Utf8.encode text).length < 2 ^ 32) :
    Reads Reader.name (name text) text := by
  intro rest
  rw [Reader.name, name, (reads_sized h).bind_append]
  simp only [Text.Utf8.decode?_encode]
  rfl

/-- The items may be read in another form than that in which they were written. -/
theorem reads_times {item : Reader β} {encode : α → List UInt8} {form : α → β} {items : List α}
    (h : ∀ x ∈ items, Reads item (encode x) (form x)) :
    Reads (Reader.times item items.length) (items.flatMap encode) (items.map form) := by
  induction items with
  | nil => exact reads_pure []
  | cons x xs ih =>
    rw [List.forall_mem_cons] at h
    exact h.1.bind ((ih h.2).map (form x :: ·))

/-- The number of items, and then the items. -/
theorem reads_vector {item : Reader β} {encode : α → List UInt8} {form : α → β} {items : List α}
    (hcount : items.length < 2 ^ 32) (h : ∀ x ∈ items, Reads item (encode x) (form x)) :
    Reads (Reader.vector item) (vector encode items) (items.map form) :=
  (reads_unsigned hcount).bind (reads_times h)

/-- Items that take bytes are not more than the bytes of their sequence. -/
theorem length_le_vector (encode : α → List UInt8) (h : ∀ x, 0 < (encode x).length)
    (items : List α) : items.length ≤ (vector encode items).length := by
  have hitems : items.length ≤ (items.flatMap encode).length := by
    induction items with
    | nil => exact Nat.le_refl 0
    | cons x xs ih =>
      have hx : 0 < (encode x).length := h x
      rw [List.flatMap_cons, List.length_append, List.length_cons]
      omega
  rw [vector, List.length_append]
  omega

/-- An item is no longer than the sequence it stands in. -/
theorem length_le_vector_of_mem {encode : α → List UInt8} {items : List α} {x : α}
    (h : x ∈ items) : (encode x).length ≤ (vector encode items).length := by
  have hitem : (encode x).length ≤ (items.flatMap encode).length :=
    (List.sublist_flatten_of_mem (List.mem_map_of_mem h)).length_le
  rw [vector, List.length_append]
  omega

/-- A section that would be empty is left out, and its absence is read as no items. -/
theorem reads_sectionOf (id : UInt8) {item : Reader α} {encode : α → List UInt8} {items : List α}
    (hsize : (vector encode items).length < 2 ^ 32) (hpos : ∀ x, 0 < (encode x).length)
    (h : ∀ x ∈ items, Reads item (encode x) x) :
    Reads (Reader.sectionOf id item) (sectionOf id encode items) items := by
  have hcount : items.length < 2 ^ 32 :=
    Nat.lt_of_le_of_lt (length_le_vector encode hpos items) hsize
  have hitems : Reads (Reader.vector item) (vector encode items) items := by
    simpa using reads_vector hcount h
  intro rest
  have hhead : (sectionOf id encode items ++ rest).head? = some id := rfl
  show (if (sectionOf id encode items ++ rest).head? = some id then _ else _ :
    Reader (List α)) _ = _
  rw [if_pos hhead]
  exact ((reads_literal id).bind (reads_sizedOf hsize hitems)) rest

end Sequences

/-! ### Instructions

The reader of instructions has the length of the input as its fuel, and every instruction takes
less. -/

section Instructions

/-- The reader knows an instruction by its first byte, and with bodies of at most `n` bytes it reads
the rest of it. -/
def ReadsInstr (n : Nat) (i : Instr) : Prop :=
  ∃ opcode tail, instr i = opcode :: tail ∧ opcode ≠ endByte ∧ opcode ≠ elseByte ∧
    Reads (Reader.instrAfter (Reader.sequenceUpTo n) opcode) tail i

/-- The reader goes on to the end of some instructions of less than `n` bytes. -/
def ReadsInstrs (n : Nat) (is : List Instr) : Prop :=
  ∀ stop, stop = endByte ∨ stop = elseByte →
    Reads (Reader.sequenceUpTo n) (instrs is ++ [stop]) (is, stop)

/-- A byte that stands for an instruction by itself begins no other one, so the reader takes it for
that instruction. -/
theorem readsInstr_plain {n : Nat} {i : Instr} {opcode : UInt8} (hbytes : instr i = [opcode])
    (hplain : plainOfByte? opcode = some i) : ReadsInstr n i := by
  have hend : opcode ≠ endByte := by
    rintro rfl
    cases hplain
  have helse : opcode ≠ elseByte := by
    rintro rfl
    cases hplain
  refine ⟨opcode, [], hbytes, hend, helse, ?_⟩
  have hafter : Reader.instrAfter (Reader.sequenceUpTo n) opcode =
      Reader.found (plainOfByte? opcode) := by
    unfold Reader.instrAfter
    -- the bytes before the last case stand for no instruction by themselves
    split <;> first | cases hplain | rfl
  rw [hafter]
  exact reads_found hplain

/-- The end of a sequence takes one round. -/
theorem readsInstrs_nil (n : Nat) : ReadsInstrs (n + 1) [] := by
  intro stop hstop rest
  rw [instrs, List.nil_append, Reader.sequenceUpTo, (reads_byte stop).bind_append, if_pos hstop]
  rfl

/-- An instruction in front takes one round more. -/
theorem ReadsInstrs.cons {n : Nat} {i : Instr} {is : List Instr} (hi : ReadsInstr n i)
    (his : ReadsInstrs n is) : ReadsInstrs (n + 1) (i :: is) := by
  obtain ⟨opcode, tail, hbytes, hend, helse, htail⟩ := hi
  intro stop hstop
  rw [instrs, hbytes, List.append_assoc]
  refine (reads_byte opcode).bind ?_
  rw [if_neg (not_or.mpr ⟨hend, helse⟩)]
  exact htail.bind ((his stop hstop).map fun p => (i :: p.1, p.2))

/-- A body that ends with its `end`. -/
theorem ReadsInstrs.closed {n : Nat} {body : List Instr} (h : ReadsInstrs n body) :
    Reads (Reader.closed (Reader.sequenceUpTo n)) (instrs body ++ [endByte]) body := by
  intro rest
  rw [Reader.closed, (h endByte (.inl rfl)).bind_append]
  exact (reads_guard rfl).map (fun _ => body) rest

/-- The block type and the body of a block. -/
theorem ReadsInstrs.block {n : Nat} {body : List Instr} (h : ReadsInstrs n body)
    (result : Option ValueType) (form : Option ValueType → List Instr → Instr) :
    Reads (do
      let result ← Reader.found (blockOfByte? (← Reader.byte))
      return form result (← Reader.closed (Reader.sequenceUpTo n)))
      (blockByte result :: instrs body ++ [endByte]) (form result body) := by
  have htype := reads_found (blockOfByte?_blockByte result)
  exact (reads_byte (blockByte result)).bind (htype.bind (h.closed.map (form result)))

/-- The alignment is the one that is expected, and the offset follows. -/
theorem reads_offset {offset : Nat} (h : offset < 2 ^ 32) :
    Reads Reader.offset (alignment :: unsigned offset) offset :=
  (reads_literal alignment).bind (reads_unsigned h)

/-- What follows the block type of a conditional. -/
abbrev bodies (n : Nat) (result : Option ValueType) : Reader Instr := do
  let (body, stop) ← Reader.sequenceUpTo n
  return .branch result body (← Reader.alternate (Reader.sequenceUpTo n) stop)

/-- A conditional without an alternative ends after its first body. -/
theorem ReadsInstrs.bodies_one {n : Nat} {body : List Instr} (h : ReadsInstrs n body)
    (result : Option ValueType) :
    Reads (bodies n result) (instrs body ++ [endByte]) (.branch result body none) := by
  intro rest
  rw [bodies, (h endByte (.inl rfl)).bind_append]
  rfl

/-- A conditional with an alternative has `else` between its bodies. -/
theorem ReadsInstrs.bodies_two {n : Nat} {body alternate : List Instr} (h : ReadsInstrs n body)
    (halternate : ReadsInstrs n alternate) (result : Option ValueType) :
    Reads (bodies n result) (instrs body ++ elseByte :: instrs alternate ++ [endByte])
      (.branch result body (some alternate)) := by
  intro rest
  have hbytes : instrs body ++ elseByte :: instrs alternate ++ [endByte] ++ rest =
      instrs body ++ [elseByte] ++ (instrs alternate ++ [endByte] ++ rest) := by
    simp
  rw [hbytes, bodies, (h elseByte (.inr rfl)).bind_append]
  show (some <$> Reader.closed (Reader.sequenceUpTo n) >>= _) _ = _
  rw [(halternate.closed.mapped some).bind_append]
  rfl

theorem length_instr_pos (i : Instr) : 0 < (instr i).length := by
  cases i with
  | branch _ _ alternate => cases alternate <;> exact Nat.succ_pos _
  | load type | store type => cases type <;> exact Nat.succ_pos _
  | _ => exact Nat.succ_pos _

mutual

/-- Every instruction is read back, with the instructions in it. -/
theorem readsInstr {n : Nat} {i : Instr} (hfits : i.Fits) (hn : (instr i).length ≤ n) :
    ReadsInstr n i := by
  cases i with
  -- a body is shorter than its instruction, which has the opcode and the end as well
  | block result body =>
    have hlength : (instrs body).length < n := by
      simp only [instr, List.length_cons, List.length_append] at hn
      omega
    exact ⟨_, _, rfl, by decide, by decide, (readsInstrs hfits hlength).block result .block⟩
  | loop result body =>
    have hlength : (instrs body).length < n := by
      simp only [instr, List.length_cons, List.length_append] at hn
      omega
    exact ⟨_, _, rfl, by decide, by decide, (readsInstrs hfits hlength).block result .loop⟩
  | branch result body alternate =>
    have htype := reads_found (blockOfByte?_blockByte result)
    cases alternate with
    | none =>
      have hlength : (instrs body).length < n := by
        simp only [instr, List.length_cons, List.length_append] at hn
        omega
      have hbodies := (readsInstrs hfits hlength).bodies_one result
      exact ⟨_, _, rfl, by decide, by decide, (reads_byte _).bind (htype.bind hbodies)⟩
    | some alternate =>
      have hlength : (instrs body).length < n ∧ (instrs alternate).length < n := by
        simp only [instr, List.length_cons, List.length_append] at hn
        omega
      have hbodies :=
        (readsInstrs hfits.1 hlength.1).bodies_two (readsInstrs hfits.2 hlength.2) result
      exact ⟨_, _, rfl, by decide, by decide, (reads_byte _).bind (htype.bind hbodies)⟩
  | br | brIf | call | localGet | localSet | localTee | globalGet | globalSet =>
    exact ⟨_, _, rfl, by decide, by decide, (reads_unsigned hfits).map _⟩
  | load type | store type =>
    cases type <;> exact ⟨_, _, rfl, by decide, by decide, (reads_offset hfits).map _⟩
  | i32Const value => exact ⟨_, _, rfl, by decide, by decide, (reads_word value).map _⟩
  | f32Const value =>
    exact ⟨_, _, rfl, by decide, by decide, (reads_littleEndian32 value.bits).map _⟩
  | memorySize | memoryGrow => exact ⟨_, _, rfl, by decide, by decide, (reads_literal 0).map _⟩
  | i32Op op => exact readsInstr_plain rfl (plainOfByte?_intOpByte op)
  | f32Op op => exact readsInstr_plain rfl (plainOfByte?_floatOpByte op)
  | unreachable | ret | drop | i32Eqz | f32Neg | f32ConvertI32S => exact readsInstr_plain rfl rfl

theorem readsInstrs {n : Nat} {is : List Instr} (hfits : Instr.FitsAll is)
    (hn : (instrs is).length < n) : ReadsInstrs n is := by
  cases n with
  | zero => exact absurd hn (Nat.not_lt_zero _)
  | succ n =>
    cases is with
    | nil => exact readsInstrs_nil n
    | cons i is =>
      have hpos : 0 < (instr i).length := length_instr_pos i
      have hlength : (instr i).length + (instrs is).length < n + 1 := by
        rwa [instrs, List.length_append] at hn
      have hi : ReadsInstr n i := readsInstr hfits.1 (by omega)
      exact ReadsInstrs.cons hi (readsInstrs hfits.2 (by omega))

end

/-- The number of bytes that are left bounds the number of instructions. -/
theorem reads_sequence {is : List Instr} (hfits : Instr.FitsAll is) :
    Reads (Reader.closed Reader.sequence) (instrs is ++ [endByte]) is := by
  intro rest
  have hlength : (instrs is).length < (instrs is ++ [endByte] ++ rest).length + 1 := by
    simp only [List.length_append]
    omega
  exact (readsInstrs hfits hlength).closed rest

end Instructions

/-! ### Entries of sections

One lemma for each kind of entry. -/

section Entries

theorem reads_valueType (t : ValueType) : Reads Reader.valueType [typeByte t] t :=
  (reads_byte (typeByte t)).bind (reads_found (typeOfByte?_typeByte t))

theorem reads_valueTypes {types : List ValueType} (h : types.length < 2 ^ 32) :
    Reads (Reader.vector Reader.valueType) (vector ([typeByte ·]) types) types := by
  have hread := reads_vector h fun t _ => reads_valueType t
  rwa [List.map_id'] at hread

theorem reads_funcType {t : FuncType} (h : (funcType t).length < 2 ^ 32) :
    Reads Reader.funcType (funcType t) t := by
  have hcount (types : List ValueType) : types.length ≤ (vector ([typeByte ·]) types).length :=
    length_le_vector ([typeByte ·]) (fun _ => Nat.one_pos) types
  have hparams : t.params.length < 2 ^ 32 := by
    have hle := hcount t.params
    rw [funcType, List.length_append, List.length_cons] at h
    omega
  have hresults : t.results.length < 2 ^ 32 := by
    have hle := hcount t.results
    rw [funcType, List.length_append] at h
    omega
  exact (reads_literal 0x60).bind
    ((reads_valueTypes hparams).bind ((reads_valueTypes hresults).map (FuncType.mk t.params)))

theorem length_lt_of_sized {bytes : List UInt8} {n : Nat} (h : (sized bytes).length < n) :
    bytes.length < n := by
  rw [sized, List.length_append] at h
  omega

theorem reads_importEntry {i : ImportEntry} (h : (importEntry i).length < 2 ^ 32)
    (htype : i.type < 2 ^ 32) : Reads Reader.importEntry (importEntry i) i := by
  rw [importEntry, List.length_append, List.length_append] at h
  have hmodule := reads_name (length_lt_of_sized (show (name i.module).length < 2 ^ 32 by omega))
  have hname := reads_name (length_lt_of_sized (show (name i.name).length < 2 ^ 32 by omega))
  have htypes := (reads_unsigned htype).map (ImportEntry.mk i.module i.name)
  rw [importEntry, List.append_assoc]
  exact hmodule.bind (hname.bind ((reads_literal 0x00).bind htypes))

/-- The limits of the memory, of which only the least is given. -/
theorem reads_memory {pages : Nat} (h : pages < 2 ^ 32) :
    Reads Reader.memory (memory pages) pages :=
  (reads_literal 0x00).bind (reads_unsigned h)

theorem reads_constant (w : UInt32) : Reads Reader.constant (constant w) w :=
  (reads_literal 0x41).bind ((reads_word w).bind ((reads_literal endByte).map fun _ => w))

theorem reads_global (w : UInt32) : Reads Reader.global (global w) w :=
  (reads_literal _).bind ((reads_literal _).bind (reads_constant w))

theorem reads_exportTarget {target : ExportTarget} (h : target.index < 2 ^ 32) :
    Reads Reader.exportTarget (exportTarget target) target := by
  cases target with
  | function index => exact (reads_byte 0x00).bind ((reads_unsigned h).map ExportTarget.function)
  | memory index => exact (reads_byte 0x02).bind ((reads_unsigned h).map ExportTarget.memory)

theorem reads_exportEntry {e : ExportEntry} (h : (exportEntry e).length < 2 ^ 32)
    (htarget : e.target.index < 2 ^ 32) : Reads Reader.exportEntry (exportEntry e) e := by
  rw [exportEntry, List.length_append] at h
  have hname := reads_name (length_lt_of_sized (show (name e.name).length < 2 ^ 32 by omega))
  exact hname.bind ((reads_exportTarget htarget).map (ExportEntry.mk e.name))

/-- The types of a run. -/
def expand (run : Nat × ValueType) : List ValueType :=
  List.replicate run.1 run.2

/-- Written out, the runs of some locals are the locals. -/
theorem flatMap_expand_runs (locals : List ValueType) : (runs locals).flatMap expand = locals := by
  induction locals with
  | nil => rfl
  | cons t ts ih =>
    rw [runs]
    split
    · rename_i n u rest hruns
      rw [hruns] at ih
      split
      · -- the local is of the type of the first run, which grows by one
        rename_i htu
        rw [htu, ← ih]
        rfl
      · rw [List.flatMap_cons, ih]
        rfl
    · rename_i hruns
      rw [hruns] at ih
      rw [← ih]
      rfl

/-- There are no more runs than locals. -/
theorem length_runs_le (locals : List ValueType) : (runs locals).length ≤ locals.length := by
  fun_induction runs locals with
  | case1 => exact Nat.le_refl 0
  | case2 ts n t rest hruns ih =>
    rw [hruns] at ih
    exact Nat.le_succ_of_le ih
  | case3 t ts n u rest hruns hne ih =>
    rw [hruns] at ih
    exact Nat.succ_le_succ ih
  | case4 t ts hruns ih => exact Nat.succ_le_succ (Nat.zero_le _)

/-- No run is longer than there are locals. -/
theorem fst_le_of_mem_runs {locals : List ValueType} {run : Nat × ValueType}
    (h : run ∈ runs locals) : run.1 ≤ locals.length := by
  have hsublist := List.sublist_flatten_of_mem (List.mem_map_of_mem (f := expand) h)
  have hlength := hsublist.length_le
  rw [← List.flatMap_def, flatMap_expand_runs, expand, List.length_replicate] at hlength
  exact hlength

/-- A run is read as the locals it stands for. -/
theorem reads_localRun {run : Nat × ValueType} (h : run.1 < 2 ^ 32) :
    Reads Reader.localRun (localRun run) (expand run) :=
  (reads_unsigned h).bind ((reads_valueType run.2).map (List.replicate run.1))

/-- The locals in runs, and the body with its end. -/
theorem reads_code {c : Code} (h : (code c).length < 2 ^ 32) (hlocals : c.locals.length < 2 ^ 32)
    (hbody : Instr.FitsAll c.body) : Reads Reader.code (code c) c := by
  have hcount : (runs c.locals).length < 2 ^ 32 := Nat.lt_of_le_of_lt (length_runs_le _) hlocals
  have hruns : Reads (Reader.vector Reader.localRun) (vector localRun (runs c.locals))
      ((runs c.locals).map expand) :=
    reads_vector hcount fun run hrun =>
      reads_localRun (Nat.lt_of_le_of_lt (fst_le_of_mem_runs hrun) hlocals)
  have hflatten : ((runs c.locals).map expand).flatten = c.locals := by
    rw [← List.flatMap_def, flatMap_expand_runs]
  have hcode := (reads_sequence hbody).map (Code.mk ((runs c.locals).map expand).flatten)
  refine reads_sizedOf (length_lt_of_sized h) ?_
  rw [List.append_assoc]
  refine hruns.bind ?_
  rw [hflatten]
  exact (reads_sequence hbody).map (Code.mk c.locals)

theorem reads_segment {s : Segment} (h : (segment s).length < 2 ^ 32)
    (hoffset : s.offset < 2 ^ 32) : Reads Reader.segment (segment s) s := by
  rw [segment, List.length_append] at h
  have hbytes := reads_sized (length_lt_of_sized (show (sized s.bytes).length < 2 ^ 32 by omega))
  refine (reads_literal 0x00).bind ((reads_constant (.ofNat s.offset)).bind ?_)
  rw [UInt32.toNat_ofNat_of_lt' hoffset]
  exact hbytes.map (Segment.mk s.offset)

end Entries

/-! ### Modules

The sections in the order of the format. -/

section Modules

theorem length_unsigned_pos (n : Nat) : 0 < (unsigned n).length := by
  unfold unsigned
  split <;> exact Nat.succ_pos _

theorem length_sized_pos (bytes : List UInt8) : 0 < (sized bytes).length := by
  rw [sized, List.length_append]
  exact Nat.add_pos_left (length_unsigned_pos _) _

theorem length_append_pos {bytes : List UInt8} (h : 0 < bytes.length) (rest : List UInt8) :
    0 < (bytes ++ rest).length := by
  rw [List.length_append]
  omega

/-- The last section is absent if it would be empty, and then nothing is read. -/
theorem read_dataSection {segments : List Segment}
    (hsize : (vector segment segments).length < 2 ^ 32)
    (hoffsets : ∀ s ∈ segments, s.offset < 2 ^ 32) :
    Reader.sectionOf 11 Reader.segment (dataSection segments) = some (segments, []) := by
  cases segments with
  | nil => rfl
  | cons s segments =>
    have hreads : Reads (Reader.sectionOf 11 Reader.segment)
        (sectionOf 11 segment (s :: segments)) (s :: segments) :=
      reads_sectionOf 11 hsize (fun _ => Nat.succ_pos _) fun s hs =>
        reads_segment (Nat.lt_of_le_of_lt (length_le_vector_of_mem hs) hsize) (hoffsets s hs)
    simpa [dataSection] using hreads []

/-- Reading what was written gives the module. -/
theorem decode?_encode {m : Module} (h : m.Fits) : decode? (encode m) = some m := by
  obtain ⟨hs, himportTypes, hfunctionTypes, hpages, htargets, hlocals, hbodies, hoffsets⟩ := h
  have htypes : Reads (Reader.sectionOf 1 Reader.funcType) (sectionOf 1 funcType m.types) m.types :=
    reads_sectionOf 1 hs.types (fun _ => Nat.succ_pos _) fun t ht =>
      reads_funcType (Nat.lt_of_le_of_lt (length_le_vector_of_mem ht) hs.types)
  have himports : Reads (Reader.sectionOf 2 Reader.importEntry)
      (sectionOf 2 importEntry m.imports) m.imports :=
    reads_sectionOf 2 hs.imports
      (fun _ => length_append_pos (length_append_pos (length_sized_pos _) _) _) fun i hi =>
      reads_importEntry (Nat.lt_of_le_of_lt (length_le_vector_of_mem hi) hs.imports)
        (himportTypes i hi)
  have hfunctions : Reads (Reader.sectionOf 3 Reader.unsigned)
      (sectionOf 3 unsigned m.functions) m.functions :=
    reads_sectionOf 3 hs.functions length_unsigned_pos fun type htype =>
      reads_unsigned (hfunctionTypes type htype)
  have hmemories : Reads (Reader.sectionOf 5 Reader.memory)
      (sectionOf 5 memory m.memories) m.memories :=
    reads_sectionOf 5 hs.memories (fun _ => Nat.succ_pos _) fun pages hmem =>
      reads_memory (hpages pages hmem)
  have hglobals : Reads (Reader.sectionOf 6 Reader.global)
      (sectionOf 6 global m.globals) m.globals :=
    reads_sectionOf 6 hs.globals (fun _ => Nat.succ_pos _) fun w _ => reads_global w
  have hentries : Reads (Reader.sectionOf 7 Reader.exportEntry)
      (sectionOf 7 exportEntry m.entries) m.entries :=
    reads_sectionOf 7 hs.entries (fun _ => length_append_pos (length_sized_pos _) _) fun e he =>
      reads_exportEntry (Nat.lt_of_le_of_lt (length_le_vector_of_mem he) hs.entries)
        (htargets e he)
  have hcodes : Reads (Reader.sectionOf 10 Reader.code) (sectionOf 10 code m.codes) m.codes :=
    reads_sectionOf 10 hs.codes (fun _ => length_sized_pos _) fun c hc =>
      reads_code (Nat.lt_of_le_of_lt (length_le_vector_of_mem hc) hs.codes) (hlocals c hc)
        (hbodies c hc)
  have hmodule : Reader.module (encode m) = some (m, []) := by
    simp only [encode, List.append_assoc]
    rw [Reader.module, (reads_take header).bind_append, guard, if_pos rfl, pure_bind]
    rw [htypes.bind_append, himports.bind_append, hfunctions.bind_append, hmemories.bind_append,
      hglobals.bind_append, hentries.bind_append, hcodes.bind_append]
    -- nothing follows the last section, and it is left out if there are no segments
    show (Reader.sectionOf 11 Reader.segment (dataSection m.segments) >>= _) = _
    rw [read_dataSection hs.segments hoffsets]
    rfl
  rw [decode?, hmodule]

end Modules

end Binary

end WasmCompiler.Wasm
