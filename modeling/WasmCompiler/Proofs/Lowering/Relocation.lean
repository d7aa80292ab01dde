import WasmCompiler.Proofs.Lowering.Linking
import WasmCompiler.Proofs.Tree.Literals
import WasmCompiler.Proofs.Tree.Lockstep

/-!
# Relocation

Where the string literals begin has no influence on a compiled program other than on their
addresses. There is one image of a text (`Image`), with relocatable functions and with the literals
at distances from their beginning, and every compilation gives this image, loaded at the start that
it was given, rounded up to the cell size (`compile_relocates`).

* `parse_shift` is the part about parsing, `exprs_checkStmt` the part about checking, and
  `Generated.eq_load` the part about lowering;
* `Image.load_shiftsTo` compares two loads of one image.
-/

namespace WasmCompiler

open Wasm (Descriptor Function Linking Relocatable RelocatableFunction)
open Wasm.Relocatable (linkAll)
open SymbolTable (Alike)

/-! ### Images

A program without addresses, and how it gets them. -/

/-- A compiled program whose literals have no addresses yet. -/
structure Image where
  functions : List RelocatableFunction
  /-- The string literals, from address zero on. -/
  strings : StringPool
  exportsMemory : Bool

namespace Image

/-- The numbers of the functions, and the addresses of the literals if they begin at `base`. -/
def linking (image : Image) (base : Nat) : Linking :=
  { Lowering.linking ((image.functions.map (·.name)).zipIdx hostImports.length)
      (hostImports.length + image.functions.length) image.strings with
    address := fun text => base + (image.strings.offset? text).getD 0 }

/-- The program with its literals from `base` on. -/
def load (image : Image) (base : Nat) : Descriptor :=
  { imports := hostImports
    functions := image.functions.map (·.link (image.linking base)) ++ [Lowering.allocator]
    segments := image.strings.entries.map fun entry => ⟨base + entry.2, stringRecord entry.1⟩
    heapBase := base + image.strings.limit
    memoryPages := Wasm.pagesThrough (base + image.strings.limit)
    exportsMemory := image.exportsMemory }

end Image

namespace Wasm

/-- Functions that are the same, instruction by instruction, except that the addresses of string
literals are moved. -/
structure Function.ShiftsTo (δ : Int) (f f' : Function) : Prop where
  name : f'.name = f.name
  type : f'.type = f.type
  locals : f'.locals = f.locals
  exported : f'.exported = f.exported
  body : ∃ (code : List Relocatable) (l l' : Linking),
    f.body = linkAll l code ∧ f'.body = linkAll l' code ∧ l'.callee = l.callee ∧
      l'.allocator = l.allocator ∧ ∀ text, (l'.address text : Int) = l.address text + δ

/-- Descriptors that are the same, except that the string literals and the heap are moved. Both end
with the allocator. -/
structure Descriptor.ShiftsTo (δ : Int) (d d' : Descriptor) : Prop where
  imports : d'.imports = d.imports
  exportsMemory : d'.exportsMemory = d.exportsMemory
  functions : ∃ fs fs', d.functions = fs ++ [Lowering.allocator] ∧
    d'.functions = fs' ++ [Lowering.allocator] ∧ List.Forall₂ (Function.ShiftsTo δ) fs fs'
  segments : List.Forall₂ (fun s s' => s'.bytes = s.bytes ∧ (s'.offset : Int) = s.offset + δ)
    d.segments d'.segments
  heapBase : (d'.heapBase : Int) = d.heapBase + δ

end Wasm

/-- Loading an image at two places moves the literals and the heap by the difference and changes
nothing else. -/
theorem Image.load_shiftsTo (image : Image) (n n' : Nat) :
    (image.load n).ShiftsTo (n' - n : Int) (image.load n') := by
  have haddress (text : String) : ((image.linking n').address text : Int) =
      (image.linking n).address text + (n' - n : Int) := by
    simp only [Image.linking]
    omega
  refine ⟨rfl, rfl, ⟨_, _, rfl, rfl, ?_⟩, ?_, ?_⟩
  · rw [List.forall₂_map_left_iff, List.forall₂_map_right_iff]
    refine List.forall₂_same.mpr fun r _ => ⟨rfl, rfl, rfl, rfl, ?_⟩
    exact ⟨r.code, image.linking n, image.linking n', rfl, rfl, rfl, rfl, haddress⟩
  · rw [Image.load, Image.load, List.forall₂_map_left_iff, List.forall₂_map_right_iff]
    refine List.forall₂_same.mpr fun entry _ => ⟨rfl, ?_⟩
    dsimp only
    omega
  · simp only [Image.load]
    omega

/-! ### Literals of checked programs

Checking fills in types, and leaves expressions as they are. -/

/-- All results of an operation on tables have a property. -/
def Gives {α : Type} (m : SymbolM α) (Q : α → Prop) : Prop :=
  ∀ t a t', m t = .ok a t' → Q a

section Gives

variable {α β : Type} {P : α → Prop} {Q : β → Prop}

theorem gives_pure {b : β} (h : Q b) : Gives (pure b) Q := by
  intro t a t' ha
  obtain ⟨rfl, -⟩ := EStateM.pure_eq_ok_iff.mp ha
  exact h

/-- What holds of the first result is known in the second step. -/
theorem Gives.bind {m : SymbolM α} {k : α → SymbolM β} (hm : Gives m P)
    (hk : ∀ a, P a → Gives (k a) Q) : Gives (m >>= k) Q := by
  intro t b t' hb
  obtain ⟨a, t₁, ha, hb⟩ := EStateM.bind_eq_ok_iff.mp hb
  exact hk a (hm t a t₁ ha) t₁ b t' hb

/-- Nothing need be known of a first step whose result is not used. -/
theorem Gives.seq {m : SymbolM α} {k : α → SymbolM β} (hk : ∀ a, Gives (k a) Q) :
    Gives (m >>= k) Q := by
  intro t b t' hb
  obtain ⟨a, t₁, -, hb⟩ := EStateM.bind_eq_ok_iff.mp hb
  exact hk a t₁ b t' hb

/-- What is done to the table at the end does not change the result. -/
theorem Gives.closing {m : SymbolM α} (hm : Gives m P) (close : SymbolTable → SymbolTable) :
    Gives (SymbolTable.closing close m) P := by
  intro t a t' ha
  obtain ⟨t₁, ha, -⟩ := closing_eq_ok_iff.mp ha
  exact hm t a t₁ ha

theorem Gives.inScope {m : SymbolM α} (hm : Gives m P) : Gives (SymbolTable.inScope m) P :=
  .seq fun _ => hm.closing _

end Gives

mutual

/-- Checking a statement keeps its expressions. -/
theorem exprs_checkStmt (result : DataType) : (stmt : Stmt) →
    Gives (checkStmt result stmt) fun stmt' => stmt'.exprs = stmt.exprs
  | .declare .. | .ret .. | .assign .. | .print .. | .expression .. => by
    rw [checkStmt]
    exact .seq fun _ => gives_pure rfl
  | .function .. | .struct .. => by
    rw [checkStmt]
    intro t stmt' t' h
    cases h
  | .conditional _ condition body none => by
    rw [checkStmt]
    refine .seq fun _ => (exprs_checkStmts result body).inScope.bind fun body' hbody => ?_
    exact gives_pure (by rw [Stmt.exprs, Stmt.exprs, hbody])
  | .conditional _ condition body (some alternate) => by
    rw [checkStmt]
    refine .seq fun _ => (exprs_checkStmts result body).inScope.bind fun body' hbody => ?_
    refine (exprs_checkStmt result alternate).bind fun alternate' halternate => ?_
    exact gives_pure (by rw [Stmt.exprs, Stmt.exprs, hbody, halternate])
  | .whileLoop _ condition body => by
    rw [checkStmt]
    refine .seq fun _ => (exprs_checkStmts result body).inScope.bind fun body' hbody => ?_
    exact gives_pure (by rw [Stmt.exprs, Stmt.exprs, hbody])
  | .block _ body => by
    rw [checkStmt]
    refine (exprs_checkStmts result body).inScope.bind fun body' hbody => ?_
    exact gives_pure (by rw [Stmt.exprs, Stmt.exprs, hbody])

theorem exprs_checkStmts (result : DataType) : (stmts : List Stmt) →
    Gives (checkStmts result stmts) fun stmts' => Stmt.exprsAll stmts' = Stmt.exprsAll stmts
  | [] => gives_pure rfl
  | stmt :: stmts => by
    rw [checkStmts]
    refine (exprs_checkStmt result stmt).bind fun stmt' hstmt => ?_
    refine (exprs_checkStmts result stmts).bind fun stmts' hstmts => ?_
    exact gives_pure (by rw [Stmt.exprsAll, Stmt.exprsAll, hstmt, hstmts])

end

/-- A checked declaration has the literals of its source. -/
theorem Lowering.CheckedTopLevel.texts_eq {g : SymbolTable} {stmt stmt' : Stmt}
    (h : CheckedTopLevel g stmt stmt') : stmt'.texts = stmt.texts := by
  cases h with
  | struct => rfl
  | function hchecked =>
    have hbody := exprs_checkStmts _ _ _ _ _ hchecked.checkedBody
    rw [Stmt.texts, Stmt.texts, Stmt.exprs, Stmt.exprs, hbody]

/-! ### Linking with the same addresses

The code does not depend on the addresses of texts that are not in it. -/

namespace Wasm.Relocatable

variable {l l' : Linking}

mutual

/-- Only the addresses of the literals in the code matter. -/
theorem link_congr (hcallee : l'.callee = l.callee) (hallocator : l'.allocator = l.allocator) :
    (i : Relocatable) → (∀ text ∈ texts i, l'.address text = l.address text) → link l' i = link l i
  | .plain .., _ => by
    simp only [link]
  | .address text, h => by
    rw [link, link, h text (by simp [texts])]
  | .call callee, _ => by
    rw [link, link, hcallee]
  | .allocate, _ => by
    rw [link, link, hallocator]
  | .block result body, h | .loop result body, h | .branch result body none, h => by
    rw [texts] at h
    rw [link, link, linkAll_congr hcallee hallocator body h]
  | .branch result body (some alternate), h => by
    rw [texts, List.forall_mem_append] at h
    rw [link, link, linkAll_congr hcallee hallocator body h.1,
      linkAll_congr hcallee hallocator alternate h.2]

theorem linkAll_congr (hcallee : l'.callee = l.callee) (hallocator : l'.allocator = l.allocator) :
    (code : List Relocatable) → (∀ text ∈ textsAll code, l'.address text = l.address text) →
      linkAll l' code = linkAll l code
  | [], _ => by
    rw [linkAll, linkAll]
  | i :: is, h => by
    rw [textsAll, List.forall_mem_append] at h
    rw [linkAll, linkAll, link_congr hcallee hallocator i h.1,
      linkAll_congr hcallee hallocator is h.2]

end

end Wasm.Relocatable

/-! ### Parsing

Texts are parsed alike wherever their literals begin. -/

/-- What a compilation went through. -/
theorem compile_eq_ok {source : String} {options : CompileOptions} {d : Descriptor}
    (h : compile source options = .ok d) : options.memoryStart ≤ maxMemoryStart ∧
      ∃ program t t', options.symbols.parse source = (.ok program, t) ∧
        generate program t = .ok d t' := by
  unfold compile compileReported Reported.andThen parseReported at h
  split at h
  · rename_i pair hparsed
    split at hparsed
    · cases hparsed
    · rename_i hstart
      split at hparsed
      · cases hparsed
      · rename_i program t hparse
        obtain rfl := Except.ok.inj hparsed
        refine ⟨Nat.le_of_not_lt hstart, program, t, ?_⟩
        unfold lowerReported at h
        dsimp only at h
        split at h
        · cases h
        · rename_i d' t' hgenerate
          obtain rfl := Except.ok.inj h
          exact ⟨t', hparse, hgenerate⟩
  · cases h

section Parsing

variable {source : String} {a b : Nat} {exportsMemory : Bool} {program program' : Program}
  {t t' : SymbolTable}

/-- A start that is admitted is rounded up to an address. -/
theorem alignCell_lt_addressSpace (h : a ≤ maxMemoryStart) : alignCell a < addressSpace := by
  have hlt := alignCell_lt a
  simp only [maxMemoryStart, addressSpace, cellSize] at h hlt ⊢
  omega

/-- A text is parsed with a pool that begins at its start, rounded up, in a table that is fresh
otherwise. -/
theorem parse_eq_ok
    (h : (CompileOptions.symbols ⟨a, exportsMemory⟩).parse source = (.ok program, t))
    (ha : a ≤ maxMemoryStart) :
    parseProgram source (StringPool.shift (alignCell a) ⟨[], 0⟩) = (.ok program, t.strings) ∧
      t.Fresh ∧ t.exportsMemory = exportsMemory := by
  have hfresh := SymbolTable.fresh_of_parse h
  obtain ⟨_, hparse, rfl⟩ := SymbolTable.parse_eq_ok_iff.mp h
  refine ⟨?_, hfresh, rfl⟩
  rwa [← StringPool.empty_eq_shift (alignCell_lt_addressSpace ha)]

/-- Texts are read in the same way wherever their literals begin. -/
theorem parse_shift
    (h : (CompileOptions.symbols ⟨a, exportsMemory⟩).parse source = (.ok program, t))
    (h' : (CompileOptions.symbols ⟨b, exportsMemory⟩).parse source = (.ok program', t'))
    (ha : a ≤ maxMemoryStart) (hb : b ≤ maxMemoryStart) :
    program' = program ∧ Alike t t' ∧ ∃ pool : StringPool,
      t.strings = pool.shift (alignCell a) ∧ t'.strings = pool.shift (alignCell b) := by
  obtain ⟨hparse, hfresh, hexports⟩ := parse_eq_ok h ha
  obtain ⟨hparse', hfresh', hexports'⟩ := parse_eq_ok h' hb
  obtain ⟨rfl, pool, hpool, hpool'⟩ := parseProgram_shift (cellSize_dvd_alignCell a)
    (cellSize_dvd_alignCell b) hparse hparse'
  refine ⟨rfl, ⟨?_, fun name => ?_, ?_, ?_, ?_, ?_⟩, pool, hpool, hpool'⟩
  · rw [hfresh.scopes, hfresh'.scopes]
  · rw [SymbolTable.function?, SymbolTable.function?, hfresh.functions, hfresh'.functions]
  · rw [hfresh.structs, hfresh'.structs]
  · rw [hfresh.nextSlot, hfresh'.nextSlot]
  · rw [hfresh.declared, hfresh'.declared]
  · rw [hexports, hexports']

end Parsing

/-! ### Programs

What was parsed is lowered alike, and the result loaded. -/

/-- A literal of an expression that is fit has a place. -/
theorem isSome_of_mem_texts {pool : StringPool} {e : Expr} (h : e.LiteralsFit pool) {text : String}
    (hmem : text ∈ e.texts) : (pool.offset? text).isSome := by
  obtain ⟨part, hpart, htext⟩ := List.mem_filterMap.mp hmem
  cases part with
  | string location text' =>
    obtain rfl := Option.some.inj htext
    exact h _ hpart
  | _ => cases htext

/-- The literals of a parsed program have their places. -/
theorem isSome_offset?_of_parse {source : String} {options : CompileOptions} {program : Program}
    {t : SymbolTable} (h : options.symbols.parse source = (.ok program, t)) {stmt : Stmt}
    (hstmt : stmt ∈ program.statements) {text : String} (htext : text ∈ stmt.texts) :
    (t.strings.offset? text).isSome := by
  obtain ⟨hfits, -⟩ := literalsFit_of_parse h (StringPool.limit_empty_lt options.memoryStart)
  obtain ⟨e, he, hmem⟩ := List.mem_flatMap.mp htext
  exact isSome_of_mem_texts (Stmt.forall_mem_exprsAll_iff.mp hfits stmt hstmt e he) hmem

/-- A literal of a statement has a place, in the pool before it is shifted. -/
theorem isSome_of_parse {source : String} {options : CompileOptions} {program : Program}
    {t : SymbolTable} {pool : StringPool} {n : Nat}
    (h : options.symbols.parse source = (.ok program, t)) (hpool : t.strings = pool.shift n)
    {stmt : Stmt} (hstmt : stmt ∈ program.statements) {text : String} (htext : text ∈ stmt.texts) :
    (pool.offset? text).isSome := by
  have hsome := isSome_offset?_of_parse h hstmt htext
  rwa [hpool, StringPool.offset?_shift, Option.isSome_map] at hsome

namespace Lowering

section Loading

variable {program checked : Program} {t g g₀ : SymbolTable} {functions : List Function}
  {d : Descriptor} {rs : List RelocatableFunction} {pool : StringPool} {n : Nat}

/-- The literals of the relocatable functions are those of the program, in order. -/
theorem Generated.texts_eq (hd : Generated program t g checked functions d)
    (hrs : List.Forall₂ (RelocatesTo g) checked.statements rs) :
    rs.map (fun r => Relocatable.textsAll r.code) = program.statements.map Stmt.texts := by
  have hchecks := hd.checks
  -- the induction is on the statements, whatever the programs that they are of
  generalize program.statements = stmts at hchecks ⊢
  generalize checked.statements = stmts' at hchecks hrs
  induction hchecks generalizing rs with
  | nil =>
    cases hrs
    rfl
  | cons hstmt _ ih =>
    cases hrs with
    | cons hr hothers =>
      rw [List.map_cons, List.map_cons, hr.texts, hstmt.texts_eq, ih hothers]

/-- A descriptor is its image, loaded where the literals begin. -/
theorem Generated.eq_load (hd : Generated program t g checked functions d) (ht : t.Fresh)
    (hpool : t.strings = pool.shift n) (hrs : List.Forall₂ (RelocatesTo g₀) checked.statements rs)
    (halike : Alike g₀ g)
    (hplaced : ∀ r ∈ rs, ∀ text ∈ Relocatable.textsAll r.code, (pool.offset? text).isSome) :
    d = Image.load ⟨rs, pool, t.exportsMemory⟩ n := by
  have hg := (ht.declared_of_declare hd.declares).rest
  have hstrings : g.strings = pool.shift n := by rw [hg, ← hpool]
  have hexports : g.exportsMemory = t.exportsMemory := by rw [hg]
  have hfunctions := functions_eq_map hrs halike hd.lowers
  have hnames : declaredNames checked = rs.map (·.name) := by
    have hlowered := names_of_lowered hd.lowers
    rwa [hfunctions, List.map_map] at hlowered
  -- a function refers to nothing but callees, the allocator and placed literals
  have hlink (r : RelocatableFunction) (hr : r ∈ rs) :
      r.link (programLinking checked g.strings) =
        r.link (Image.linking ⟨rs, pool, t.exportsMemory⟩ n) := by
    rw [RelocatableFunction.link, RelocatableFunction.link]
    congr 1
    refine Relocatable.linkAll_congr ?_ ?_ _ fun text htext => ?_
    · rw [programLinking, functionIndices, hnames]
      rfl
    · show allocatorIndex checked = hostImports.length + rs.length
      rw [allocatorIndex, hnames, List.length_map]
    · -- a literal that is in the pool lies where the image says
      obtain ⟨offset, hoffset⟩ := Option.isSome_iff_exists.mp (hplaced r hr text htext)
      show (g.strings.offset? text).getD 0 = n + (pool.offset? text).getD 0
      rw [hstrings, StringPool.offset?_shift, hoffset]
      rfl
  rw [hd.descriptor, hfunctions, List.map_congr_left hlink, Image.load, hexports]
  simp [SymbolTable.heapBase, hstrings, StringPool.segments, StringPool.shift]

end Loading

end Lowering

open Lowering in
/-- Where the literals begin only moves them. A text has one image: compiling it with any start
gives this image, loaded at the start rounded up. The literals in the code of each declaration are
those of the source, in order, and the descriptors of two starts differ by the distance between
them. -/
theorem compile_relocates {source : String} {exportsMemory : Bool} {a : Nat} {d : Descriptor}
    (h : compile source ⟨a, exportsMemory⟩ = .ok d) :
    ∃ (program : Program) (t : SymbolTable) (image : Image),
      (CompileOptions.symbols ⟨a, exportsMemory⟩).parse source = (.ok program, t) ∧
      image.functions.map (fun r => Relocatable.textsAll r.code) =
        program.statements.map Stmt.texts ∧
      d = image.load (alignCell a) ∧
      ∀ b d', compile source ⟨b, exportsMemory⟩ = .ok d' →
        d' = image.load (alignCell b) ∧ d.ShiftsTo (alignCell b - alignCell a : Int) d' := by
  obtain ⟨ha, program, t, t', hparse, hgenerate⟩ := compile_eq_ok h
  obtain ⟨-, hfresh, hexports⟩ := parse_eq_ok hparse ha
  obtain ⟨-, -, pool, hpool, -⟩ := parse_shift hparse hparse ha ha
  obtain ⟨g, checked, functions, hd⟩ := generated_of_generate hgenerate
  obtain ⟨rs, hrs⟩ := hd.relocatable
  have htexts := hd.texts_eq hrs
  -- the literals in the code are literals of the source, and parsing has placed those
  have hplaced : ∀ r ∈ rs, ∀ text ∈ Relocatable.textsAll r.code, (pool.offset? text).isSome := by
    intro r hr text htext
    have hmem : Relocatable.textsAll r.code ∈ program.statements.map Stmt.texts :=
      htexts ▸ List.mem_map_of_mem hr
    obtain ⟨stmt, hstmt, heq⟩ := List.mem_map.mp hmem
    rw [← heq] at htext
    exact isSome_of_parse hparse hpool hstmt htext
  have hload := hd.eq_load hfresh hpool hrs (.refl g) hplaced
  rw [hexports] at hload
  refine ⟨program, t, ⟨rs, pool, exportsMemory⟩, hparse, htexts, hload, fun b d' h' => ?_⟩
  obtain ⟨hb, program', u, u', hparse', hgenerate'⟩ := compile_eq_ok h'
  obtain ⟨-, hfresh', hexports'⟩ := parse_eq_ok hparse' hb
  obtain ⟨rfl, halike, pool', hpool', hpoolb⟩ := parse_shift hparse hparse' ha hb
  -- the start does not matter for the pool before it is placed
  obtain rfl : pool' = pool := StringPool.shift_injective (hpool'.symm.trans hpool)
  obtain ⟨g', checked', functions', hd'⟩ := generated_of_generate hgenerate'
  -- both runs register and check the same declarations, in tables that look alike
  obtain ⟨g₁, hdeclare, halike'⟩ := transfers_declare _ t u halike () g hd.declares
  obtain ⟨-, rfl⟩ := EStateM.Result.ok.inj (hdeclare.symm.trans hd'.declares)
  have hchecked : checked'.statements = checked.statements := by
    rw [eq_map_typed hd.checks]
    exact eq_map_typed (hd'.checks.imp fun _ _ hs => hs.transfer halike'.symm)
  have hload' := hd'.eq_load hfresh' hpoolb (hchecked ▸ hrs) halike' hplaced
  rw [hexports'] at hload'
  refine ⟨hload', ?_⟩
  rw [hload, hload']
  exact Image.load_shiftsTo _ _ _

/-- A text with two literals, one of them twice. -/
def relocationSource : String :=
  "func main() \x7b print 'ab'; let s = 'cde'; let k = 8; if k < 9 \x7b print 'ab'; \x7d \x7d"

/-- Two literals, with the start 5 rounded up to 8, and with the start 100. -/
theorem compile_relocates_literals :
    ∃ (d d' : Descriptor) (image : Image), compile relocationSource ⟨5, true⟩ = .ok d ∧
      compile relocationSource ⟨100, true⟩ = .ok d' ∧ d.segments.length = 2 ∧
      d = image.load 8 ∧ d' = image.load 100 ∧ d.ShiftsTo 92 d' := by
  have hfirst : (compile relocationSource ⟨5, true⟩).toOption.any (·.segments.length = 2) := by
    decide +kernel
  have hsecond : (compile relocationSource ⟨100, true⟩).toBool := by decide +kernel
  obtain ⟨d, hd, hlength⟩ := Except.exists_of_any hfirst
  obtain ⟨d', hd'⟩ := Except.exists_of_toBool hsecond
  obtain ⟨program, t, image, -, -, hload, hall⟩ := compile_relocates hd
  obtain ⟨hload', hshifts⟩ := hall 100 d' hd'
  exact ⟨d, d', image, hd, hd', of_decide_eq_true hlength, hload, hload', hshifts⟩

end WasmCompiler
