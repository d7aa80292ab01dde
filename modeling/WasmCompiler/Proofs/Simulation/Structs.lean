import WasmCompiler.Proofs.Memory.Literals
import WasmCompiler.Proofs.Symbols.Fields

/-!
# Structs in memory

A constructor counts its fields by their positions, while code that reads or writes a field finds
the position by the name. Both mean the same cell, as no two fields share a name, and both choose
the same machine type for it (`structFields_agree`). What is left out are fields whose type is a
tuple of one float: their cells are taken for integers.

`storeAll_constructed`, `yieldsField_iff` and `reaches_assignField` are about the constructor, the
reader and the writer of a field, each on its own.
-/

namespace WasmCompiler

open Lowering
open Source (Datum Setting World)
open Wasm (Environment Instr Machine Memory Place Value ValueType)
open Wasm.Machine (Reaches)
open Wasm.Validation (maxPages)

section Fields

variable {env : Environment} {w w' : World} {base : UInt32} {fields : List (String × DataType)}
  {i j k limit : Nat} {type : DataType} {values : List Value} {d : Datum} {args : List Datum}

/-! ### The cells of a block

Words and the values that they stand for. -/

/-- A value is stored as the word that is read back as the value. -/
theorem ofWord_cellWord {v : Value} {type : ValueType} (h : v.type = type) :
    Value.ofWord type (Source.cellWord v) = v := by
  subst h
  cases v <;> rfl

/-- Values are written into the cells of a block inside the memory, each into its own. -/
theorem storeAll_takes (hargs : ∀ d ∈ args, ∃ v, d.values = [v]) {cell : Nat}
    (hin : base.toNat + (cell + args.length) * cellSize ≤ w.memory.size)
    (hpages : w.memory.pageCount ≤ limit) :
    ∃ w', Source.storeAll base cell args w = .ok ((), w') ∧
      Takes limit w w' 0 (fun a => base.toNat + cell * cellSize ≤ a ∧
        a < base.toNat + (cell + args.length) * cellSize) ∧
      ∀ i d v, args[i]? = some d → d.values = [v] →
        w'.memory.word? (base.toNat + (cell + i) * cellSize) = some (Source.cellWord v) := by
  induction args generalizing cell w with
  | nil =>
    exact ⟨w, rfl, ⟨rfl, rfl, Nat.le_refl _, hpages, fun _ _ => rfl⟩, by simp⟩
  | cons d ds ih =>
    rw [List.forall_mem_cons] at hargs
    obtain ⟨v, hv⟩ := hargs.1
    simp only [List.length_cons, cellSize] at hin ⊢
    have hcell : base.toNat + cell * cellSize + 4 ≤ w.memory.size := by
      rw [cellSize]
      omega
    obtain ⟨w₁, hstore, htakes, hword⟩ :=
      @storeWord_takes limit w (base.toNat + cell * cellSize) (Source.cellWord v) hcell hpages
    have hcells : base.toNat + (cell + 1 + ds.length) * cellSize ≤ w₁.memory.size := by
      have := htakes.size_le
      rw [cellSize]
      omega
    obtain ⟨w', hrest, htakes', hwords⟩ := ih hargs.2 hcells htakes.pages
    simp only [cellSize] at hstore htakes hword htakes' hwords
    refine ⟨w', ?_, (htakes.trans htakes').mono (fun a ha => by omega) rfl, ?_⟩
    · obtain ⟨_, _⟩ := d
      obtain rfl := hv
      exact (Source.bind_of_ok hstore).trans hrest
    · intro i d' v' hd' hv'
      cases i with
      | zero =>
        obtain rfl := Option.some.inj hd'
        obtain rfl : v = v' := by simpa [hv] using hv'
        -- the cells behind this one are written later
        exact Memory.word?_frame hword htakes'.size_le fun a _ hlt => htakes'.bytes a (by omega)
      | succ i =>
        have hcell := hwords i d' v' hd' hv'
        rwa [show cell + 1 + i = cell + (i + 1) by omega] at hcell

/-- What the code pushes that reads a field, with the address of a block on the stack. -/
def YieldsField (env : Environment) (w : World) (base : UInt32) (type : DataType) (i : Nat)
    (values : List Value) : Prop :=
  ∀ (p : Place) (rest : List Instr) (stack : List Value) (locals : Array Value),
    (p.machine (loadCell type i :: rest) (.i32 base :: stack) locals w.store).step env =
      .running (p.machine rest (values.reverse ++ stack) locals w.store)

/-- The word of the cell is pushed, as a value of the type of the cell. -/
theorem yieldsField_of_word {word : UInt32}
    (h : w.memory.word? (base.toNat + i * cellSize) = some word) :
    YieldsField env w base type i [.ofWord (cellType type) word] := by
  intro p rest stack locals
  have hword : w.store.memory.word? (base.toNat + i * cellSize) = some word := h
  rw [loadCell, Place.step_load, Machine.access, Machine.address, hword]
  rfl

/-- Reading a field gives the value of its cell, and nothing else. -/
theorem yieldsField_iff {word : UInt32}
    (h : w.memory.word? (base.toNat + i * cellSize) = some word) :
    YieldsField env w base type i values ↔ values = [.ofWord (cellType type) word] := by
  constructor
  · intro hyields
    let p : Place := ⟨[], 0, 0, []⟩
    have hsame := (yieldsField_of_word h p [] [] #[]).symm.trans (hyields p [] [] #[])
    have hstack := congrArg (fun m : Machine => m.frame.stack) (Wasm.Outcome.running.inj hsame)
    have hreverse : values.reverse = [.ofWord (cellType type) word] := by
      simpa [Place.machine] using hstack.symm
    rw [← values.reverse_reverse, hreverse, List.reverse_singleton]
  · rintro rfl
    exact yieldsField_of_word h

/-! ### Writing a field

One cell changes, and the others stay. -/

/-- What assigning to a field has done to a block: the field has the value, the other fields are
what they were, and no byte outside the block has changed. -/
structure FieldAssigned (env : Environment) (fields : List (String × DataType)) (base : UInt32)
    (j : Nat) (type : DataType) (d : Datum) (w w' : World) : Prop where
  yields : YieldsField env w' base type j d.values
  others : ∀ k field values, k ≠ j → fields[k]? = some field →
    (YieldsField env w' base field.2 k values ↔ YieldsField env w base field.2 k values)
  inside : base.toNat + DataType.structSize fields ≤ w'.memory.size
  bytes : ∀ a, a < base.toNat ∨ base.toNat + DataType.structSize fields ≤ a →
    w'.memory.byte a = w.memory.byte a

/-- The cell of a field is in the block. -/
theorem cell_le_structSize {field : String × DataType} (h : fields[i]? = some field) :
    (i + 1) * cellSize ≤ DataType.structSize fields :=
  Nat.mul_le_mul_right _ (List.getElem?_eq_some_iff.mp h).1

/-- A word that is written inside a memory changes its own four bytes. -/
theorem exists_setWord? {m : Memory} {address : Nat} (word : UInt32)
    (h : address + 4 ≤ m.size) :
    ∃ m', m.setWord? address word = some m' ∧ m'.size = m.size ∧ m'.word? address = some word ∧
      (∀ other, other + 4 ≤ address ∨ address + 4 ≤ other → m'.word? other = m.word? other) ∧
      ∀ a, a < address ∨ address + 4 ≤ a → m'.byte a = m.byte a :=
  ⟨_, Memory.setWord?_eq_some_iff.mpr ⟨h, rfl⟩, m.size_setWord address word,
    m.word?_setWord word h, fun _ hother => Memory.word?_setWord_of_disjoint word h hother,
    fun _ ha => Memory.byte_setWord_of_disjoint word h ha⟩

/-- There is a word at every address inside the memory. -/
theorem exists_word? {m : Memory} {address : Nat} (h : address + 4 ≤ m.size) :
    ∃ word, m.word? address = some word := by
  have hcontains : m.contains address 4 = true := decide_eq_true h
  rw [Memory.word?, if_pos hcontains]
  exact ⟨_, rfl⟩

/-- Assigning to a field stores a value of its type into its cell. -/
theorem reaches_assignField {field : String × DataType} (hstorable : field.2.Storable)
    (hfield : fields[j]? = some field) (hd : HasType d field.2)
    (hin : base.toNat + DataType.structSize fields ≤ w.memory.size) :
    ∃ w', FieldAssigned env fields base j field.2 d w w' ∧
      ∀ (p : Place) (rest : List Instr) (stack : List Value) (locals : Array Value),
        Reaches env (p.machine (storeCell field.2 j :: rest)
            (d.values.reverse ++ .i32 base :: stack) locals w.store)
          (p.machine rest stack locals w'.store) := by
  obtain ⟨v, hv, hvtype⟩ := hd.single hstorable
  have hcell := cell_le_structSize hfield
  simp only [cellSize] at hcell
  obtain ⟨memory, hset, hsize, hread, hapart, hbytes⟩ := @exists_setWord? w.memory
    (base.toNat + j * cellSize) (Source.cellWord v) (by simp only [cellSize]; omega)
  simp only [cellSize] at hapart hbytes
  refine ⟨{ w with memory }, ⟨?_, ?_, ?_, ?_⟩, fun p rest stack locals => ?_⟩
  · have hyields := @yieldsField_of_word env { w with memory } base j field.2 _ hread
    rwa [ofWord_cellWord hvtype, ← hv] at hyields
  · intro k other values hne hother
    have hcell' := cell_le_structSize hother
    simp only [cellSize] at hcell'
    -- the cell of the other field is inside the block, and apart from this one
    obtain ⟨word, hword⟩ := @exists_word? w.memory (base.toNat + k * cellSize)
      (by simp only [cellSize]; omega)
    have hword' : memory.word? (base.toNat + k * cellSize) = some word := by
      rw [← hword]
      exact hapart _ (by simp only [cellSize]; omega)
    exact (@yieldsField_iff env { w with memory } base k other.2 values word hword').trans
      (yieldsField_iff hword).symm
  · show base.toNat + DataType.structSize fields ≤ memory.size
    rwa [hsize]
  · exact fun a ha => hbytes a (by omega)
  · rw [hv]
    exact p.reaches_store rest stack locals w.store (toWord?_eq hvtype) hset

/-! ### Constructing

All cells are written, in the order of the fields. -/

/-- What a constructor has done: there is a block where the heap ended, its fields are the
arguments, and no byte outside it has changed. -/
structure Constructed (env : Environment) (fields : List (String × DataType)) (args : List Datum)
    (w w' : World) : Prop where
  yields : ∀ i field d, fields[i]? = some field → args[i]? = some d →
    YieldsField env w' w.heap field.2 i d.values
  inside : w.heap.toNat + DataType.structSize fields ≤ w'.memory.size
  bytes : ∀ a, a < w.heap.toNat ∨ w.heap.toNat + DataType.structSize fields ≤ a →
    w'.memory.byte a = w.memory.byte a

/-- The constructor of a struct and the allocator that it calls are functions of the environment,
which together take no more room than `need`, and the host grants no more pages than there are. -/
structure HasConstructor (env : Environment) (index alloc : Nat) (name : String)
    (fields : List (String × DataType)) (need : Nat) : Prop where
  functions : ∃ room room', room + room' ≤ need ∧
    env.functions[index]? = some (.defined (constructor alloc name fields).type
      ⟨(constructor alloc name fields).locals, (constructor alloc name fields).body⟩ room) ∧
    env.functions[alloc]? =
      some (.defined allocator.type ⟨allocator.locals, allocator.body⟩ room')
  room : need ≤ env.stackRoom
  pages : ∀ pages, env.grantsPages pages → pages ≤ maxPages

/-- The allocator finds room for a block: a call for its size returns, and leaves a memory that has
the block. -/
def HasRoom (env : Environment) (alloc : Nat) (w : World) (size : Nat) : Prop :=
  ∃ w' : World, env.Ends alloc [.i32 (.ofNat size)] 1 w.store (.ok ([.i32 w.heap], w'.store)) ∧
    w.heap.toNat + size ≤ w'.memory.size

/-- There is room if the host grants the pages that the block takes, and they are not all there
are. -/
theorem hasRoom_of_granted {alloc : Nat} (h : HasAllocator env alloc) (hlimit : limit < maxPages)
    (hgrants : ∀ pages, w.memory.pageCount < pages → pages ≤ limit → env.grantsPages pages)
    (hpages : w.memory.pageCount ≤ limit) {size : Nat}
    (hfits : w.heap.toNat + size ≤ limit * Wasm.pageSize) : HasRoom env alloc w size := by
  let s : Setting := ⟨⟨[]⟩, .empty 0, env.exportsMemory, env.grantsPages⟩
  have hsize : (UInt32.ofNat size).toNat = size := by
    refine UInt32.toNat_ofNat_of_lt' ?_
    simp only [maxPages, Wasm.pageSize] at hlimit hfits
    show size < 4294967296
    omega
  rw [← hsize] at hfits
  obtain ⟨memory, hrun, -, -, -, hend⟩ := Source.reserve_of_granted (s := s) hlimit hgrants hpages
    hfits (Nat.lt_succ_self _)
  rw [hsize] at hend
  exact ⟨_, (h.ends_of_reserve (s := s) rfl _ _).1 _ _ hrun, hend⟩

/-- An argument for a field is one machine value, of the type of the field's cell. -/
theorem argument_eq {field : String × DataType} (hstorable : ∀ field ∈ fields, field.2.Storable)
    (hargs : List.Forall₂ HasType args (fields.map (·.2))) (hfield : fields[i]? = some field)
    (hd : args[i]? = some d) : ∃ v, d.values = [v] ∧ v.type = cellType field.2 := by
  obtain ⟨hi, rfl⟩ := List.getElem?_eq_some_iff.mp hfield
  obtain ⟨hi', rfl⟩ := List.getElem?_eq_some_iff.mp hd
  have htyped := hargs.get hi' (by simpa using hi)
  simp only [List.get_eq_getElem, List.getElem_map] at htyped
  exact htyped.single (hstorable _ (List.getElem_mem hi))

/-- Filling a new block with the arguments is all that there is to do. -/
theorem storeAll_constructed {w₁ : World} (hstorable : ∀ field ∈ fields, field.2.Storable)
    (hargs : List.Forall₂ HasType args (fields.map (·.2))) (hgrows : w.memory.Extends w₁.memory)
    (hpages : w₁.memory.pageCount ≤ maxPages)
    (hinside : w.heap.toNat + DataType.structSize fields ≤ w₁.memory.size) :
    ∃ w', Source.storeAll w.heap 0 args w₁ = .ok ((), w') ∧
      Constructed env fields args w w' := by
  have hlength : args.length = fields.length := by
    rw [hargs.length_eq, List.length_map]
  -- every argument is a single value, since its field fits a cell
  have hcells : ∀ d ∈ args, ∃ v, d.values = [v] := by
    intro d hd
    obtain ⟨i, hi, rfl⟩ := List.getElem_of_mem hd
    obtain ⟨v, hv, -⟩ := argument_eq hstorable hargs
      (List.getElem?_eq_getElem (hlength ▸ hi)) (List.getElem?_eq_getElem hi)
    exact ⟨v, hv⟩
  obtain ⟨w', hstore, htakes, hwords⟩ := @storeAll_takes w₁ w.heap maxPages args hcells 0
    (by rw [Nat.zero_add, hlength]; exact hinside) hpages
  refine ⟨w', hstore, fun i field d hfield hd => ?_, ?_, fun a ha => ?_⟩
  · obtain ⟨v, hv, hvtype⟩ := argument_eq hstorable hargs hfield hd
    have hword := hwords i d v hd hv
    rw [Nat.zero_add] at hword
    have hyields := @yieldsField_of_word env w' w.heap i field.2 _ hword
    rwa [ofWord_cellWord hvtype, ← hv] at hyields
  · exact Nat.le_trans hinside htakes.size_le
  · -- taking the block changes no byte, and filling it only bytes of the block
    rw [DataType.structSize, ← hlength] at ha
    rw [htakes.bytes a (by simp only [cellSize] at ha ⊢; omega)]
    exact hgrows.byte_eq a

/-- A constructor takes a block and fills its cells with the arguments. -/
theorem reaches_constructor {index alloc need : Nat} {name : String}
    (h : HasConstructor env index alloc name fields need)
    (hstorable : ∀ field ∈ fields, field.2.Storable)
    (hargs : List.Forall₂ HasType args (fields.map (·.2)))
    (hpages : w.memory.pageCount ≤ maxPages)
    (hroom : HasRoom env alloc w (DataType.structSize fields)) :
    ∃ w', Constructed env fields args w w' ∧
      ∀ (p : Place) (rest : List Instr) (stack : List Value) (locals : Array Value),
        p.room + need ≤ env.stackRoom →
        Reaches env
          (p.machine (.call index :: rest) ((args.flatMap (·.values)).reverse ++ stack) locals
            w.store)
          (p.machine rest (.i32 w.heap :: stack) locals w'.store) := by
  obtain ⟨room, room', hneed, hindex, halloc⟩ := h.functions
  -- the bound is never reached, and the constructor makes no calls but one of the allocator
  let s : Setting := ⟨⟨[]⟩, .empty 0, env.exportsMemory, env.grantsPages⟩
  let fuel := maxPages + 1
  obtain ⟨w₁, hends, hinside⟩ := hroom
  have hfits := h.room
  have hallocator : HasAllocator env alloc := ⟨⟨room', by omega, halloc⟩, h.pages⟩
  obtain ⟨hreserve, hgrown⟩ := hallocator.reserve_of_ends hpages (s := s) rfl
    (Nat.lt_succ_self maxPages) hends
  obtain ⟨w', hstore, hconstructed⟩ :=
    storeAll_constructed hstorable hargs hgrown.grows hgrown.pageCount_le hinside
  refine ⟨w', hconstructed, fun p rest stack locals hplace => ?_⟩
  have hreserves := reserveFollows_allocator (s := s) rfl halloc fuel
  have hfollows := follows_constructor hstorable hindex hreserves p rest stack locals (w := w)
    (by omega) hargs
  have heval : (do
      let block ← Source.reserve s fuel (.ofNat (DataType.structSize fields))
      Source.storeAll block 0 args
      return ⟨.struct name fields, [.i32 block]⟩ : Source.Eval Datum) w =
        .ok (⟨.struct name fields, [.i32 w.heap]⟩, w') :=
    (Source.bind_of_ok hreserve).trans ((Source.bind_of_ok hstore).trans rfl)
  rw [heval] at hfollows
  obtain ⟨_, hreaches, rfl, -⟩ := hfollows
  exact hreaches

/-! ### The three ways to a field

Positions are counted alike everywhere. -/

/-- The constructor, the reader and the writer of a struct's fields agree. -/
structure FieldsAgree (alloc : Nat) (name : String) (fields : List (String × DataType)) :
    Prop where
  /-- The name of a field is lowered to a load from the cell of its position. -/
  reads : ∀ (i : Nat) field, fields[i]? = some field →
    ∀ (c : LoweringContext) (location : Location) (base : Expr) (code : List Instr)
      (s s' : List ValueType),
    lowerExpr c base s = .ok (⟨code, .struct name fields⟩, s') →
    lowerExpr c (.member location base field.1) s =
      .ok (⟨code ++ [loadCell field.2 i], field.2⟩, s')
  /-- An assignment to it is lowered to a store into this cell. -/
  writes : ∀ (j : Nat) field, fields[j]? = some field →
    ∀ (f : FunctionContext) (location : Location) (base value : Expr) (code : List Instr)
      (l : Lowered) (s s₁ s' : LoweringState),
    expr f (lowerExpr · base) s = .ok ⟨code, .struct name fields⟩ s₁ →
    expr f (lowerExpr · value) s₁ = .ok l s' →
    lowerAssignment f value (.member location base field.1) s =
      .ok (code ++ l.code ++ [storeCell field.2 j]) s'
  /-- The constructor returns the address of a block whose fields are its arguments. -/
  constructs : ∀ (env : Environment) (index need : Nat) (args : List Datum) (w : World),
    HasConstructor env index alloc name fields need →
    List.Forall₂ HasType args (fields.map (·.2)) →
    w.memory.pageCount ≤ maxPages → HasRoom env alloc w (DataType.structSize fields) →
    ∃ w', Constructed env fields args w w' ∧
      ∀ (p : Place) (rest : List Instr) (stack : List Value) (locals : Array Value),
        p.room + need ≤ env.stackRoom →
        Reaches env
          (p.machine (.call index :: rest) ((args.flatMap (·.values)).reverse ++ stack) locals
            w.store)
          (p.machine rest (.i32 w.heap :: stack) locals w'.store)
  /-- The store into a field of any block changes this field. -/
  assigns : ∀ (env : Environment) (j : Nat) (field : String × DataType) (base : UInt32) (d : Datum)
      (w : World), fields[j]? = some field → HasType d field.2 →
    base.toNat + DataType.structSize fields ≤ w.memory.size →
    ∃ w', FieldAssigned env fields base j field.2 d w w' ∧
      ∀ (p : Place) (rest : List Instr) (stack : List Value) (locals : Array Value),
        Reaches env (p.machine (storeCell field.2 j :: rest)
            (d.values.reverse ++ .i32 base :: stack) locals w.store)
          (p.machine rest stack locals w'.store)

/-- The name of a field leads to its position, from any expression of the struct's type. -/
theorem fieldOf_eq {name : String} {field : String × DataType} (hnames : SoundFields fields)
    (hfield : fields[i]? = some field) (location : Location) (s : List ValueType) :
    fieldOf (.struct name fields) field.1 location s = .ok ((i, field.2), s) := by
  rw [fieldOf, DataType.field?, DataType.lookupField_of_nodup hnames.names hfield]
  rfl

/-- For fields with different names, each of one machine value. -/
theorem fieldsAgree_of_soundFields {alloc : Nat} {name : String} (h : SoundFields fields)
    (hfloats : ∀ field ∈ fields, field.2.isFloatTuple = false) : FieldsAgree alloc name fields := by
  -- a field that fits a cell is one value, unless it is a tuple around a float
  have hstorable : ∀ field ∈ fields, field.2.Storable := fun field hfield =>
    DataType.storable_of_fitsCell (h.cells field hfield) (hfloats field hfield)
  refine ⟨fun i field hfield c location base code s s' hbase => ?_,
    fun j field hfield f location base value code l s s₁ s' hbase hvalue => ?_,
    fun env index need args w henv hargs hpages hroom =>
      reaches_constructor henv hstorable hargs hpages hroom,
    fun env j field base d w hfield hd hin =>
      reaches_assignField (hstorable _ (List.mem_of_getElem? hfield)) hfield hd hin⟩
  · rw [lowerExpr, ScratchM.bind_of_ok hbase, ScratchM.bind_of_ok (fieldOf_eq h hfield _ _)]
    rfl
  · have hposition : expr f (fun _ => fieldOf (.struct name fields) field.1 base.location) s₁ =
        .ok (j, field.2) s₁ := by
      rw [expr, fieldOf_eq h hfield]
    rw [lowerAssignment, EStateM.bind_of_ok hbase, EStateM.bind_of_ok hposition]
    exact EStateM.bind_of_ok hvalue

/-- **Constructor, field read and field write agree.** Every struct of a program that was declared
is registered with the fields of its declaration, and if none of them is a tuple of one float, then
what its constructor stores for a field is what is read under the field's name, until something
else is assigned to it. Neither changes a byte outside the block. -/
theorem structFields_agree {program : Program} {t g : SymbolTable}
    (h : SymbolTable.declare program t = .ok () g) {location : Location} {decl : StructDecl}
    (hmem : Stmt.struct location decl ∈ program.statements) :
    ∃ fields, g.struct? decl.name = some fields ∧
      fields.map (·.1) = decl.fields.map (·.name) ∧
      lowerStruct program decl.name g =
        .ok (constructor (allocatorIndex program) decl.name fields) g ∧
      ((∀ field ∈ fields, field.2.isFloatTuple = false) →
        FieldsAgree (allocatorIndex program) decl.name fields) := by
  obtain ⟨fields, hstruct, hsound, hnames⟩ := SymbolTable.struct?_of_declare h hmem
  refine ⟨fields, hstruct, hnames, ?_, fieldsAgree_of_soundFields hsound⟩
  rw [lowerStruct, hstruct]

/-- A struct whose last field is a tuple with an element of no width. -/
def mixedStruct : Program :=
  ⟨[.struct ⟨1, 1⟩ ⟨"Mixed", [⟨"count", .named "i32", ⟨1, 14⟩⟩, ⟨"ratio", .named "f64", ⟨1, 26⟩⟩,
    ⟨"pair", .tuple [.named "none", .named "i32"], ⟨1, 38⟩⟩]⟩]⟩

/-- The fields of the struct. -/
def mixedFields : List (String × DataType) :=
  [("count", .i32), ("ratio", .f64), ("pair", .tuple [.none, .i32])]

/-- An environment with the constructor and the allocator, after the functions of the host. -/
def mixedEnvironment : Environment :=
  { functions := #[.host .print, .host .printString,
      .defined (constructor 3 "Mixed" mixedFields).type
        ⟨(constructor 3 "Mixed" mixedFields).locals, (constructor 3 "Mixed" mixedFields).body⟩ 1,
      .defined allocator.type ⟨allocator.locals, allocator.body⟩ 1]
    exportsMemory := true
    grantsPages := (· ≤ maxPages)
    stackRoom := 2 }

/-- The float of a constructed struct is read, also after its first field was assigned. -/
theorem structFields_agree_mixed :
    ∃ g, SymbolTable.declare mixedStruct (.empty 8) = .ok () g ∧
      ∀ (a b c : UInt32) (x : Number.Single), ∃ w' w'' : World,
        Reaches mixedEnvironment
          (Place.machine ⟨[], 1, 0, []⟩ [.call 2] [.i32 b, .f32 x, .i32 a] #[] onePage.store)
          (Place.machine ⟨[], 1, 0, []⟩ [] [.i32 8] #[] w'.store) ∧
        Reaches mixedEnvironment
          (Place.machine ⟨[], 1, 0, []⟩ [storeCell .i32 0] [.i32 c, .i32 8] #[] w'.store)
          (Place.machine ⟨[], 1, 0, []⟩ [] [] #[] w''.store) ∧
        YieldsField mixedEnvironment w'' 8 .i32 0 [.i32 c] ∧
        YieldsField mixedEnvironment w'' 8 .f64 1 [.f32 x] ∧
        w''.memory.byte 20 = onePage.memory.byte 20 := by
  have hdeclare : SymbolTable.declare mixedStruct (.empty 8) =
      .ok () { SymbolTable.empty 8 with structs := [("Mixed", mixedFields)] } := rfl
  obtain ⟨fields, hstruct, -, -, hagree⟩ := structFields_agree hdeclare List.mem_cons_self
  obtain rfl : mixedFields = fields := Option.some.inj hstruct
  have hfields : FieldsAgree 3 "Mixed" mixedFields := hagree (by decide)
  have hcount : onePage.memory.pageCount = 1 := by
    simp [onePage, Memory.zero, Memory.pageCount]
  have hconstructor : HasConstructor mixedEnvironment 2 3 "Mixed" mixedFields 2 :=
    ⟨⟨1, 1, Nat.le_refl _, rfl, rfl⟩, Nat.le_refl _, fun pages hle => of_decide_eq_true hle⟩
  have hroom : HasRoom mixedEnvironment 3 onePage (DataType.structSize mixedFields) := by
    have hallocator : HasAllocator mixedEnvironment 3 :=
      ⟨⟨1, by decide, rfl⟩, hconstructor.pages⟩
    exact @hasRoom_of_granted mixedEnvironment onePage 1 3 hallocator (by decide)
      (fun pages hlt hle => by omega) (Nat.le_of_eq hcount) _ (by decide)
  refine ⟨_, hdeclare, fun a b c x => ?_⟩
  let args : List Datum := [⟨.i32, [.i32 a]⟩, ⟨.f64, [.f32 x]⟩, ⟨.tuple [.none, .i32], [.i32 b]⟩]
  have hargs : List.Forall₂ HasType args (mixedFields.map (·.2)) :=
    .cons rfl (.cons rfl (.cons rfl .nil))
  obtain ⟨w', hbuilt, hcall⟩ :=
    hfields.constructs _ _ _ args onePage hconstructor hargs (hcount ▸ by decide) hroom
  obtain ⟨w'', hassigned, hstore⟩ := hfields.assigns mixedEnvironment 0 ("count", .i32) 8
    ⟨.i32, [.i32 c]⟩ w' rfl rfl hbuilt.inside
  refine ⟨w', w'', hcall _ [] [] #[] (by decide), hstore _ [] [] #[], hassigned.yields, ?_, ?_⟩
  · exact (hassigned.others 1 ("ratio", .f64) _ (by decide) rfl).mpr (hbuilt.yields 1 _ _ rfl rfl)
  · rw [hassigned.bytes 20 (.inr (by decide)), hbuilt.bytes 20 (.inr (by decide))]

end Fields

end WasmCompiler
