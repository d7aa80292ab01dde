import WasmCompiler.Proofs.Memory.Literals

/-!
# The code of array literals

A nested array literal that is checked is lowered to code that does what its evaluation does, in
every state of a machine that has the allocator (`lowerExpr_nested`). So its blocks are in memory
afterwards, one behind the other, and the code of indices goes from the block of an array to that of
an element, down to the integers (`reaches_indices`). This takes pages that the host grants, but not
all of them: the allocator takes a memory with all pages for an empty one, so that a literal that
reaches into the last page traps (`nestedLiteral_built`).

What a literal is in memory is said in `Memory.Literals`, which knows no code. `lowerExpr_nested`
goes by induction over the literal, so of all functions that a program has it asks for the allocator
only.
-/

namespace WasmCompiler

open Lowering
open Source (Interpreter World)
open Wasm (Agrees Environment Instr Machine Memory Place Store Value ValueType)
open Wasm.Machine (Reaches)
open Wasm.Validation (maxPages)

/-! ### Checked literals

The types of the parts of a literal. -/

section Typed

variable {t : SymbolTable} {location : Location} {e sub item : Expr} {items : List Expr}
  {type : DataType} {path : List Nat}

/-- The items of a checked array have the same type, if none of them is without items itself. -/
theorem typeOf_nested_array (h : typeOf t (.array location items) = .ok type)
    (hitems : ∀ item ∈ items, item.isNested) :
    ∃ element, type = .array element ∧ ∀ item ∈ items, typeOf t item = .ok element := by
  obtain ⟨first, rest, element, rfl, hfirst, -, hrest, rfl⟩ := typeOf_array_iff.mp h
  refine ⟨element, rfl, fun item hitem => ?_⟩
  rcases List.mem_cons.mp hitem with rfl | hmem
  · exact hfirst
  · rcases requireType_eq_ok_iff.mp (checkItems_eq_ok_iff.mp hrest item hmem) with ⟨hempty, -⟩ | h
    · obtain ⟨l, rfl⟩ := Expr.isEmptyArray_iff.mp hempty
      exact absurd (hitems _ hitem) (by simp [Expr.isNested])
    · exact h

/-- The type of what indices lead to. -/
def DataType.along? : DataType → List Nat → Option DataType
  | type, [] => some type
  | .array element, _ :: path => element.along? path
  | _, _ :: _ => .none

@[simp] theorem DataType.along?_nil (type : DataType) : type.along? [] = some type := by
  cases type <;> rfl

/-- What is at a path has the type that indexing finds. -/
theorem typeOf_at? (h : typeOf t e = .ok type) (hnested : e.isNested)
    (hat : e.at? path = some sub) :
    ∃ subtype, type.along? path = some subtype ∧ typeOf t sub = .ok subtype := by
  induction path generalizing e type with
  | nil =>
    obtain rfl : e = sub := Option.some.inj hat
    exact ⟨type, type.along?_nil, h⟩
  | cons i path ih =>
    obtain ⟨location, items, item, rfl, hitem, hsub⟩ := Expr.at?_cons hat
    have hitems := (Expr.isNested_array_iff.mp hnested).2
    have hmem := List.mem_of_getElem? hitem
    obtain ⟨element, rfl, htypes⟩ := typeOf_nested_array h hitems
    exact ih (htypes item hmem) (hitems item hmem) hsub

/-- A nested literal is an integer or a pointer. -/
theorem isFloat_of_isNested (h : typeOf t e = .ok type) (hnested : e.isNested) :
    type.isFloat = false := by
  cases e with
  | integer location value =>
    obtain rfl : DataType.i32 = type := Except.ok.inj h
    rfl
  | array location items =>
    obtain ⟨element, rfl, -⟩ := typeOf_nested_array h (Expr.isNested_array_iff.mp hnested).2
    rfl
  | _ => cases hnested

end Typed

/-! ### Lowering

Literals in a context without variables. -/

/-- The context without variables, which literals do not have. -/
def LoweringContext.withoutScopes (c : LoweringContext) : LoweringContext :=
  { c with symbols := { c.symbols with scopes := [] } }

section Lowering

variable {c : LoweringContext}

mutual

/-- A checked literal is lowered, and its code does what its evaluation does. -/
theorem lowerExpr_nested : (e : Expr) → e.isNested → {type : DataType} →
    typeOf c.symbols e = .ok type → (s : List ValueType) →
    ∃ code s', lowerExpr c e s = .ok (⟨code, type⟩, s') ∧ s <+: s' ∧ type.Storable ∧
      ∀ {env : Environment} {x : Interpreter} {need : Nat},
        ReserveFollows env x.setting x.fuel need c.allocator →
        ExprFollows env x need c.withoutScopes s e type code s'
  | .integer location value, hnested, type, htype, s => by
    have hrange : -0x80000000 ≤ value ∧ value < 0x80000000 := by
      simpa [Expr.isNested] using hnested
    obtain rfl : DataType.i32 = type := Except.ok.inj htype
    refine ⟨_, s, ?_, List.prefix_refl s, DataType.storable_i32, fun _ => exprFollows_integer value⟩
    rw [lowerExpr, integerWord, if_pos hrange]
    rfl
  | .array location items, hnested, type, htype, s => by
    obtain ⟨hnonempty, hitems⟩ := Expr.isNested_array_iff.mp hnested
    obtain ⟨element, rfl, htypes⟩ := typeOf_nested_array htype hitems
    obtain ⟨code, s', hlower, hgrows, hfollows⟩ := lowerItems_nested items
      (Expr.areNested_iff.mpr hitems) htypes (c.scratchBase + s.length) 1 .i32
      (fun hempty => absurd hempty hnonempty) (s ++ [.i32])
    refine ⟨arrayHeader c (c.scratchBase + s.length) items.length ++ code ++
        [.localGet (c.scratchBase + s.length)], s', ?_, (List.prefix_append _ _).trans hgrows,
      DataType.storable_array element, ?_⟩
    · rw [lowerExpr, ScratchM.bind_of_ok (allocScratch_apply c .i32), ScratchM.bind_of_ok hlower]
      rfl
    · intro env x need hreserve
      -- the first item has a type, so it is no empty array
      have hknown : ∀ item ∈ items.head?, item.isEmptyArray = false := fun item hitem =>
        isEmptyArray_of_typeOf (htypes item (List.mem_of_mem_head? hitem))
      have hsame : c.withoutScopes.allocator = c.allocator := rfl
      exact exprFollows_array (hsame ▸ hreserve) hgrows hknown (hfollows hreserve)
  | .float .., hnested, _, _, _ | .string .., hnested, _, _, _ | .identifier .., hnested, _, _, _
  | .unary .., hnested, _, _, _ | .binary .., hnested, _, _, _ | .call .., hnested, _, _, _
  | .member .., hnested, _, _, _ | .index .., hnested, _, _, _ | .tuple .., hnested, _, _, _ => by
    cases hnested

theorem lowerItems_nested : (items : List Expr) → Expr.areNested items → {element : DataType} →
    (∀ item ∈ items, typeOf c.symbols item = .ok element) → (base cell : Nat) →
    (first : DataType) → (items = [] → first = element) → (s : List ValueType) →
    ∃ code s', lowerItems c base cell first items s = .ok ((code, element), s') ∧ s <+: s' ∧
      ∀ {env : Environment} {x : Interpreter} {need : Nat},
        ReserveFollows env x.setting x.fuel need c.allocator →
        ItemsFollow env x need c.withoutScopes base cell element s items code s'
  | [], _, element, _, base, cell, first, hfirst, s => by
    obtain rfl := hfirst rfl
    exact ⟨[], s, rfl, List.prefix_refl s, fun _ => itemsFollow_nil⟩
  | e :: es, hnested, element, htypes, base, cell, first, _, s => by
    rw [Expr.areNested, Bool.and_eq_true] at hnested
    rw [List.forall_mem_cons] at htypes
    obtain ⟨code, s₁, hlower, hgrows, hstorable, hfollows⟩ :=
      lowerExpr_nested e hnested.1 htypes.1 s
    obtain ⟨rest, s', hlower', hgrows', hfollows'⟩ := lowerItems_nested es hnested.2 htypes.2 base
      (cell + 1) element (fun _ => rfl) s₁
    refine ⟨.localGet base :: code ++ storeCell element cell :: rest, s', ?_, hgrows.trans hgrows',
      fun hreserve => ?_⟩
    · rw [lowerItems, ScratchM.bind_of_ok hlower, ScratchM.bind_of_ok hlower']
      rfl
    · exact itemsFollow_cons hstorable hgrows hgrows' (hfollows hreserve) (hfollows' hreserve)

end

end Lowering

/-! ### Indices

Any number of indices behind one another. -/

/-- An expression that indexes with one integer after the other. -/
def Expr.indexed (location : Location) : Expr → List Nat → Expr
  | e, [] => e
  | e, i :: path => (Expr.index location e (.integer location i)).indexed location path

/-- What stands behind the code of an array if it is indexed with integers. -/
def indicesCode : DataType → List Nat → List Instr
  | .array element, i :: path =>
    .i32Const (.ofNat i) :: elementCode element ++ indicesCode element path
  | _, _ => []

section Indices

variable {c : LoweringContext} {type final : DataType} {path : List Nat}

theorem indicesCode_nil : indicesCode type [] = [] := by
  cases type <;> rfl

/-- Only arrays can be indexed. -/
theorem DataType.along?_cons {i : Nat} (h : type.along? (i :: path) = some final) :
    ∃ element, type = .array element ∧ element.along? path = some final := by
  cases type with
  | array element => exact ⟨element, rfl, h⟩
  | _ => cases h

/-- Nothing that leads to something else is a float. -/
theorem isFloat_of_along? (h : type.along? path = some final) (hfinal : final.isFloat = false) :
    type.isFloat = false := by
  cases path with
  | nil =>
    rw [DataType.along?_nil] at h
    rw [Option.some.inj h]
    exact hfinal
  | cons i path =>
    obtain ⟨element, rfl, -⟩ := DataType.along?_cons h
    rfl

/-- By induction on the path: each index adds its constant and the load of an element. -/
theorem lowerExpr_indexed {e : Expr} {code : List Instr} {s s' : List ValueType}
    (location : Location) (hlower : lowerExpr c e s = .ok (⟨code, type⟩, s'))
    (htype : typeOf c.symbols e = .ok type) (hpath : type.along? path = some final)
    (hrange : ∀ i ∈ path, i < 0x80000000) :
    lowerExpr c (e.indexed location path) s =
      .ok (⟨code ++ indicesCode type path, final⟩, s') := by
  induction path generalizing e code type with
  | nil =>
    rw [DataType.along?_nil] at hpath
    rw [indicesCode_nil, List.append_nil, ← Option.some.inj hpath]
    exact hlower
  | cons i path ih =>
    obtain ⟨element, rfl, hpath⟩ := DataType.along?_cons hpath
    rw [List.forall_mem_cons] at hrange
    have hword : (-0x80000000 : Int) ≤ i ∧ (i : Int) < 0x80000000 := by omega
    have hindex : lowerExpr c (.integer location i) s' =
        .ok (⟨[.i32Const (.ofNat i)], .i32⟩, s') := by
      rw [lowerExpr, integerWord, if_pos hword]
      have hcast : (Int32.ofInt (i : Int)).toUInt32 = .ofNat i := rfl
      rw [hcast]
      rfl
    -- a nested literal is no tuple variable, so the index is lowered as one of an array
    have hstep : lowerExpr c (.index location e (.integer location i)) s =
        .ok (⟨code ++ (.i32Const (.ofNat i) :: elementCode element), element⟩, s') := by
      rw [lowerExpr, ScratchM.bind_of_ok (tupleVariable?_eq_none e htype s)]
      simp only [ScratchM.bind_of_ok hlower, ScratchM.bind_of_ok hindex, List.append_assoc]
      rfl
    have hrest := ih hstep (typeOf_index_iff.mpr (.inl ⟨htype, rfl⟩)) hpath hrange.2
    rw [Expr.indexed, hrest, indicesCode, List.append_assoc, List.cons_append]

/-- The code of indices goes from the block of an array to that of an element, and on from there. -/
theorem reaches_indices {env : Environment} {p : Place} {rest : List Instr} {stack : List Value}
    {locals : Array Value} {store : Store} {word word' : UInt32}
    (hpath : type.along? path = some final) (hfinal : final.isFloat = false)
    (hfollow : store.memory.follow? word path = some word') :
    Reaches env (p.machine (indicesCode type path ++ rest) (.i32 word :: stack) locals store)
      (p.machine rest (.i32 word' :: stack) locals store) := by
  induction path generalizing type word with
  | nil =>
    obtain rfl : word = word' := Option.some.inj hfollow
    rw [indicesCode_nil]
    exact .refl
  | cons i path ih =>
    obtain ⟨element, rfl, hnext⟩ := DataType.along?_cons hpath
    obtain ⟨next, hword, hfollow⟩ := Option.bind_eq_some_iff.mp hfollow
    have haddress : store.memory.word? ((word + .ofNat i * .ofNat cellSize).toNat + 1 * cellSize) =
        some next := by
      rw [Nat.one_mul]
      exact hword
    -- on the way to an element that is no float, every cell holds a word
    have hcell : cellType element = .i32 := by
      rw [cellType, isFloat_of_along? hnext hfinal]
      rfl
    rw [indicesCode, List.cons_append, List.cons_append, List.append_assoc]
    refine (p.reaches_i32Const _ _ _ _ _).trans ?_
    refine (p.reaches_i32Const _ _ _ _ _).trans ?_
    refine (p.reaches_i32Op _ _ _ _ rfl).trans ((p.reaches_i32Op _ _ _ _ rfl).trans ?_)
    rw [loadCell, hcell]
    exact (p.reaches_load _ _ _ _ haddress).trans (ih hnext hfollow)

end Indices

/-! ### Literals that are built

What the program sees of a literal after its code has run. -/

/-- The host grants the pages that a number of bytes behind the heap take. -/
def Affords (env : Environment) (w : World) (size : Nat) : Prop :=
  ∃ granted ≤ maxPages, w.memory.pageCount ≤ granted ∧
    w.heap.toNat + size ≤ granted * Wasm.pageSize ∧
      ∀ pages, w.memory.pageCount < pages → pages ≤ granted → env.grantsPages pages

/-- Memory holds a literal behind what was the heap: indices lead to blocks with the right lengths,
apart from each other, and to the right integers. Nothing else has changed. -/
structure Built (e : Expr) (w w' : World) : Prop where
  heap : w'.heap.toNat = w.heap.toNat + e.literalSize
  host : w'.host = w.host
  kept : ∀ a, ¬(w.heap.toNat ≤ a ∧ a < w'.heap.toNat) → w'.memory.byte a = w.memory.byte a
  block : ∀ path location items, e.at? path = some (.array location items) →
    ∃ block, w'.memory.follow? w.heap path = some block ∧
      w'.memory.word? block.toNat = some (.ofNat items.length) ∧
      w.heap.toNat ≤ block.toNat ∧ block.toNat + Expr.blockSize items ≤ w'.heap.toNat
  leaf : ∀ path location value, e.at? path = some (.integer location value) →
    ∃ word, w'.memory.follow? w.heap path = some word ∧ word.toInt32.toInt = value
  apart : ∀ path path' location location' items items' block block', path ≠ path' →
    e.at? path = some (.array location items) → e.at? path' = some (.array location' items') →
    w'.memory.follow? w.heap path = some block → w'.memory.follow? w.heap path' = some block' →
    block.toNat + Expr.blockSize items ≤ block'.toNat ∨
      block'.toNat + Expr.blockSize items' ≤ block.toNat

/-- From the address of a literal, the code of indices leads to what they lead to in memory. -/
def IndicesLead (env : Environment) (e : Expr) (type : DataType) (address : UInt32) (w : World) :
    Prop :=
  ∀ path sub word, e.at? path = some sub → w.memory.follow? address path = some word →
    ∀ (p : Place) (rest : List Instr) (stack : List Value) (locals : Array Value),
      Reaches env
        (p.machine (indicesCode type path ++ rest) (.i32 address :: stack) locals w.store)
        (p.machine rest (.i32 word :: stack) locals w.store)

section Built

variable {env : Environment} {w w' : World} {location : Location} {items : List Expr} {size : Nat}

/-- Memory has no more pages than there are. -/
theorem Affords.pageCount_le (h : Affords env w size) : w.memory.pageCount ≤ maxPages := by
  obtain ⟨granted, hmost, hcount, -⟩ := h
  exact Nat.le_trans hcount hmost

/-- Where all but the last page are granted, there is room for a literal that spares it. -/
theorem Affords.roomy {s : Source.Setting} (h : Affords env w size)
    (hgrants : env.grantsPages = s.grantsPages) (hspares : SparesLastPage w size) :
    ∃ limit, Roomy s limit w ∧ w.heap.toNat + size ≤ limit * Wasm.pageSize := by
  obtain ⟨granted, hmost, hcount, hfits, hgranted⟩ := h
  obtain ⟨hless, hbelow⟩ := hspares
  rcases Nat.lt_or_eq_of_le hmost with hlt | rfl
  · exact ⟨granted, ⟨hlt, hcount, fun pages h h' => hgrants ▸ hgranted pages h h'⟩, hfits⟩
  · refine ⟨maxPages - 1, ⟨by decide, Nat.le_sub_one_of_lt hless, fun pages h h' => ?_⟩, hbelow⟩
    exact hgrants ▸ hgranted pages h (Nat.le_trans h' (Nat.sub_le _ _))

/-- A literal that does not spare the last page is afforded only if all pages are granted. -/
theorem Affords.grants_all (h : Affords env w size) (hspares : ¬SparesLastPage w size) :
    ∀ pages, w.memory.pageCount < pages → pages < maxPages → env.grantsPages pages := by
  obtain ⟨granted, hmost, hcount, hfits, hgranted⟩ := h
  intro pages hlt hlt'
  have hover : lastPage < w.heap.toNat + size := by
    by_contra hle
    exact hspares ⟨Nat.lt_trans hlt hlt', by omega⟩
  refine hgranted pages hlt ?_
  simp only [lastPage, maxPages, Wasm.pageSize] at *
  omega

/-- What a literal has taken is as it should be. -/
theorem built_of_laid {limit : Nat} (hlimit : limit < maxPages)
    (hnested : (Expr.array location items).isNested)
    (hfits : w.heap.toNat + (Expr.array location items).literalSize ≤ limit * Wasm.pageSize)
    (htakes : Takes limit w w' (Expr.array location items).literalSize fun a =>
      w.heap.toNat ≤ a ∧ a < w.heap.toNat + (Expr.array location items).literalSize)
    (hlaid : Laid w'.memory (.array location items) w.heap.toNat) :
    Built (.array location items) w w' := by
  have hspace : w.heap.toNat + (Expr.array location items).literalSize < addressSpace := by
    simp only [maxPages, Wasm.pageSize, addressSpace] at *
    omega
  have hheap := htakes.heap
  have hfollow {path : List Nat} {sub : Expr}
      (hat : (Expr.array location items).at? path = some sub) :
      w'.memory.follow? w.heap path =
          some (sub.place ((Expr.array location items).start w.heap.toNat path)) ∧
        Laid w'.memory sub ((Expr.array location items).start w.heap.toNat path) := by
    have hparts := hlaid.follow (Nat.le_of_lt hspace) hat
    rwa [Expr.place_array, UInt32.ofNat_toNat] at hparts
  -- the address of a block is a word
  have haddress {path : List Nat} {sub : Expr}
      (hat : (Expr.array location items).at? path = some sub) :
      (UInt32.ofNat ((Expr.array location items).start w.heap.toNat path)).toNat =
        (Expr.array location items).start w.heap.toNat path := by
    have hinside := @Expr.start_within _ sub path w.heap.toNat hat
    exact UInt32.toNat_ofNat_of_lt' (Nat.lt_of_le_of_lt (by omega) hspace)
  refine ⟨hheap, htakes.host, fun a ha => htakes.bytes a (hheap ▸ ha), ?_, ?_, ?_⟩
  · intro path l sub hat
    obtain ⟨hpath, hlength, -⟩ := hfollow hat
    have hinside := @Expr.start_within _ _ path w.heap.toNat hat
    rw [Expr.literalSize_array] at hinside
    refine ⟨_, hpath, ?_⟩
    rw [Expr.place_array, haddress hat]
    exact ⟨hlength, hinside.1, by omega⟩
  · intro path l value hat
    have hrange : -0x80000000 ≤ value ∧ value < 0x80000000 := by
      simpa [Expr.isNested] using Expr.isNested_at? hnested hat
    refine ⟨_, (hfollow hat).1, ?_⟩
    rw [Expr.place, Int32.toInt32_toUInt32]
    exact Int32.toInt_ofInt_of_le hrange.1 hrange.2
  · intro path path' l l' sub sub' block block' hne hat hat' hblock hblock'
    obtain rfl := Option.some.inj (hblock.symm.trans (hfollow hat).1)
    obtain rfl := Option.some.inj (hblock'.symm.trans (hfollow hat').1)
    rw [Expr.place_array, Expr.place_array, haddress hat, haddress hat']
    exact Expr.blocks_apart hat hat' hne

/-- The code goes where the indices lead in memory, step by step. -/
theorem indicesLead {t : SymbolTable} {e : Expr} {type : DataType} {address : UInt32}
    (hnested : e.isNested) (htype : typeOf t e = .ok type) : IndicesLead env e type address w := by
  intro path sub word hat hword p rest stack locals
  obtain ⟨final, hpath, hfinal⟩ := typeOf_at? htype hnested hat
  have hpointer := isFloat_of_isNested hfinal (Expr.isNested_at? hnested hat)
  exact reaches_indices hpath hpointer hword

end Built

section NestedLiteral

variable {env : Environment} {c : LoweringContext} {location : Location} {items : List Expr}
  {type : DataType} {room : Nat} {s s' : List ValueType} {locals : Array Value}

/-- Literals need no variables, only scratch locals. -/
theorem ready_withoutScopes (hsize : c.scratchBase + s.length ≤ locals.size) :
    Ready c.withoutScopes [] s locals :=
  ⟨.nil, by simp [LoweringContext.withoutScopes], hsize⟩

/-- What the code of a literal does, wherever it runs with enough room on the stack and enough
locals, and the host grants the pages that the literal takes. -/
structure BuildsLiteral (env : Environment) (c : LoweringContext) (room : Nat)
    (s s' : List ValueType) (e : Expr) (type : DataType) (code : List Instr) : Prop where
  /-- The code of indices goes behind that of the literal. -/
  indexed : ∀ location path sub, e.at? path = some sub → (∀ i ∈ path, i < 0x80000000) →
    ∃ final, lowerExpr c (e.indexed location path) s =
      .ok (⟨code ++ indicesCode type path, final⟩, s')
  /-- If the last page is spared, the literal is built. -/
  builds : ∀ (p : Place) (rest : List Instr) (stack : List Value) (locals : Array Value)
    (w : World),
    p.room + room ≤ env.stackRoom → c.scratchBase + s'.length ≤ locals.size →
    Affords env w e.literalSize → SparesLastPage w e.literalSize → ∃ locals' w',
      Reaches env (p.machine (code ++ rest) stack locals w.store)
        (p.machine rest (.i32 w.heap :: stack) locals' w'.store) ∧
      Agrees (c.scratchBase + s.length) locals locals' ∧ Built e w w' ∧
      IndicesLead env e type w.heap w'
  /-- If it is not spared, there is a trap, although the pages are granted. -/
  traps : ∀ (p : Place) (rest : List Instr) (stack : List Value) (locals : Array Value)
    (w : World),
    p.room + room ≤ env.stackRoom → c.scratchBase + s'.length ≤ locals.size →
    Affords env w e.literalSize → ¬SparesLastPage w e.literalSize →
    w.heap.toNat + e.literalSize < addressSpace →
      ∃ m', Reaches env (p.machine (code ++ rest) stack locals w.store) m' ∧
        m'.step env = .trapped .unreachable

/-- **Nested array literals do not overlap.** A nested array literal that is checked is lowered to
code that builds it if the literal spares the last page, and that traps if it does not. (The heap
pointer behind a literal that ends at the last address of all would not be a word.) -/
theorem nestedLiteral_built
    (hallocator : env.functions[c.allocator]? =
      some (.defined allocator.type ⟨allocator.locals, allocator.body⟩ room))
    (hpages : ∀ pages, env.grantsPages pages → pages ≤ maxPages)
    (hnested : (Expr.array location items).isNested)
    (htype : typeOf c.symbols (.array location items) = .ok type) (s : List ValueType) :
    ∃ code s', lowerExpr c (.array location items) s = .ok (⟨code, type⟩, s') ∧
      BuildsLiteral env c room s s' (.array location items) type code := by
  obtain ⟨code, s', hlower, -, -, hfollows⟩ := lowerExpr_nested _ hnested htype s
  -- an evaluation with more rounds than there are pages comes to an end
  let x : Interpreter :=
    ⟨⟨⟨[]⟩, .empty 0, env.exportsMemory, env.grantsPages⟩, maxPages + 1, fun _ _ => throw .wrong⟩
  have hcode : ExprFollows env x room c.withoutScopes s (.array location items) type code s' :=
    hfollows (reserveFollows_allocator rfl hallocator x.fuel)
  have hfuel : maxPages < x.fuel := Nat.lt_succ_self _
  refine ⟨code, s', hlower, ?indexed, ?builds, ?traps⟩
  case indexed =>
    intro l path sub hat hrange
    obtain ⟨final, hpath, -⟩ := typeOf_at? htype hnested hat
    exact ⟨final, lowerExpr_indexed l hlower htype hpath hrange⟩
  case builds =>
    intro p rest stack locals w hroom hsize haffords hspares
    obtain ⟨limit, hroomy, hfits⟩ := @Affords.roomy _ _ _ x.setting haffords rfl hspares
    obtain ⟨t, w', hevaluates, htakes, hlaid⟩ := evalExpr_laid hfuel _ hnested hroomy hfits
    have hrun := hcode p rest stack locals w [] hroom (ready_withoutScopes hsize)
    rw [hevaluates, Expr.place_array, UInt32.ofNat_toNat] at hrun
    obtain ⟨_, hreaches, locals', rfl, hagrees, -⟩ := hrun
    have hbuilt := built_of_laid hroomy.limit_lt hnested hfits htakes hlaid
    exact ⟨locals', w', hreaches, hagrees, hbuilt, indicesLead hnested htype⟩
  case traps =>
    intro p rest stack locals w hroom hsize haffords hspares hspace
    have hpositive : 0 < (Expr.array location items).literalSize := by
      rw [Expr.literalSize_array, Expr.blockSize, cellSize]
      omega
    have htraps : Source.evalExpr x [] (.array location items) w = .error (.trap .unreachable) :=
      evalExpr_traps hfuel hpages _ hnested (haffords.grants_all hspares) haffords.pageCount_le
        hpositive hspace hspares
    have hrun := hcode p rest stack locals w [] hroom (ready_withoutScopes hsize)
    rw [htraps] at hrun
    exact hrun

/-- Arrays of different lengths in one. -/
def raggedLiteral : Expr :=
  .array ⟨1, 1⟩ [.array ⟨1, 2⟩ [.integer ⟨1, 3⟩ 1, .integer ⟨1, 6⟩ 2],
    .array ⟨1, 10⟩ [.integer ⟨1, 11⟩ 3]]

/-- A program without declarations, whose only function is the allocator. -/
def literalContext : LoweringContext :=
  ⟨.empty 8, [], 0, 0⟩

/-- One page, with the heap in the last of the pages that there could be. -/
def highHeap : World :=
  { onePage with heap := 0xffff0000 }

/-- Above the usual base of the heap there is room for the blocks. In the last page there is none,
although the host grants it. -/
theorem nestedLiteral_built_ragged :
    ∃ code s', lowerExpr literalContext raggedLiteral [] =
        .ok (⟨code, .array (.array .i32)⟩, s') ∧
      (∃ locals' w', Reaches allocatorEnvironment
          (Place.machine ⟨[], 1, 0, []⟩ code [] (.replicate s'.length (.i32 0)) onePage.store)
          (Place.machine ⟨[], 1, 0, []⟩ [] [.i32 8] locals' w'.store) ∧
        Built raggedLiteral onePage w' ∧ w'.heap.toNat = 40) ∧
      ∃ m', Reaches allocatorEnvironment
          (Place.machine ⟨[], 1, 0, []⟩ code [] (.replicate s'.length (.i32 0)) highHeap.store) m' ∧
        m'.step allocatorEnvironment = .trapped .unreachable := by
  have hcount : onePage.memory.pageCount = 1 := by
    simp [onePage, Memory.zero, Memory.pageCount]
  have hgrants (pages : Nat) (h : pages ≤ maxPages) : allocatorEnvironment.grantsPages pages :=
    decide_eq_true h
  have hsize : raggedLiteral.literalSize = 32 := rfl
  have hliteral : ∃ code s', lowerExpr literalContext raggedLiteral [] =
        .ok (⟨code, .array (.array .i32)⟩, s') ∧
      BuildsLiteral allocatorEnvironment literalContext 0 [] s' raggedLiteral
        (.array (.array .i32)) code :=
    nestedLiteral_built rfl (fun pages hpages => of_decide_eq_true hpages) rfl rfl []
  obtain ⟨code, s', hlower, hcode⟩ := hliteral
  have hlocals : literalContext.scratchBase + s'.length ≤
      (Array.replicate s'.length (Value.i32 0)).size := by
    simp [literalContext]
  refine ⟨code, s', hlower, ?_, ?_⟩
  · have haffords : Affords allocatorEnvironment onePage raggedLiteral.literalSize := by
      refine ⟨1, by decide, Nat.le_of_eq hcount, by rw [hsize]; decide, fun pages hlt hle => ?_⟩
      omega
    have hspares : SparesLastPage onePage raggedLiteral.literalSize := by
      rw [SparesLastPage, hcount, hsize]
      decide
    obtain ⟨locals', w', hreaches, -, hbuilt, -⟩ := hcode.builds ⟨[], 1, 0, []⟩ [] []
      (.replicate s'.length (.i32 0)) onePage (Nat.le_refl 0) hlocals haffords hspares
    rw [List.append_nil] at hreaches
    refine ⟨locals', w', hreaches, hbuilt, ?_⟩
    rw [hbuilt.heap, hsize]
    rfl
  · have haffords : Affords allocatorEnvironment highHeap raggedLiteral.literalSize := by
      refine ⟨maxPages, Nat.le_refl _, ?_, ?_, fun pages _ hle => hgrants pages hle⟩
      · show onePage.memory.pageCount ≤ maxPages
        rw [hcount]
        decide
      · rw [hsize]
        decide
    have hspares : ¬SparesLastPage highHeap raggedLiteral.literalSize := by
      rw [SparesLastPage, hsize]
      exact fun h => absurd h.2 (by decide)
    have htraps := hcode.traps ⟨[], 1, 0, []⟩ [] [] (.replicate s'.length (.i32 0)) highHeap
      (Nat.le_refl 0) hlocals haffords hspares (by rw [hsize]; decide)
    rw [List.append_nil] at htraps
    exact htraps

end NestedLiteral

end WasmCompiler
