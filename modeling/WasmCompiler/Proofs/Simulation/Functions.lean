import WasmCompiler.Proofs.Lowering.Programs
import WasmCompiler.Proofs.Simulation.Stmt

/-!
# Functions of a program do what their calls mean

The allocator asks for pages round by round (`reserveFollows_allocator`), a constructor fills the
cells of a new block (`follows_constructor`), and a function begins with its arguments in its first
slots (`follows_function`). What they call in turn is taken care of by induction on the depth of
calls (`callFollows`): at each depth a call takes no more room than the largest function.

`Loaded` says where the functions of the host, those of the program and the allocator stand.
`call_struct` and `call_function` are what a call means, and `callFollows_succ` is the step of the
induction.
-/

namespace WasmCompiler

open Lowering
open Source (Datum Eval Flow Interpreter Scopes Setting Stop World)
open Wasm (Agrees Environment Function InLocals Instr IntOp Machine Place Store Value ValueType
  Written)
open Wasm.Machine (Reaches)

/-- The functions of a program can be called, and none takes more room than `most`. The host is the
one that the evaluation knows. -/
structure Loaded (env : Environment) (s : Setting) (functions : List Function) (most : Nat) :
    Prop where
  print : env.functions[printIndex]? = some (.host .print)
  printString : env.functions[printStringIndex]? = some (.host .printString)
  defined : ∀ (k : Nat) (f : Function), functions[k]? = some f → ∃ room ≤ most,
    env.functions[hostImports.length + k]? = some (.defined f.type ⟨f.locals, f.body⟩ room)
  exportsMemory : env.exportsMemory = s.exportsMemory
  grantsPages : env.grantsPages = s.grantsPages

section Allocator

variable {env : Environment} {s : Setting}

/-! ### The allocator

The one function that is not made from the source. -/

/-- A round of the loop in which the allocator asks for pages. -/
def askForPage : List Instr :=
  [.localGet 2, .memorySize, .i32Const 16, .i32Op .shl, .i32Op .leU, .brIf 1, .i32Const 1,
    .memoryGrow, .i32Const 0xffffffff, .i32Op .eq, .branch none [.unreachable] none, .br 0]

/-- What follows an answer of the host: the program stops if it was a refusal. -/
theorem reaches_answer {p : Place} {rest : List Instr} {locals : Array Value} {store : Store}
    {answer : UInt32} (h : answer ≠ 0xffffffff) :
    Reaches env
      (p.machine (.i32Const 0xffffffff :: .i32Op .eq :: .branch none [.unreachable] none :: rest)
        [.i32 answer] locals store)
      (p.machine rest [] locals store) := by
  have heq : IntOp.eq.apply answer 0xffffffff = .ok 0 := by
    simp only [IntOp.apply, h, ↓reduceIte]
  exact ((p.reaches_i32Const _ _ _ _ _).trans (p.reaches_i32Op _ _ _ _ heq)).trans
    ((p.reaches_branch_not_taken _ _ _ _).trans (p.reaches_end _ _ _ _))

/-- A refusal is a word of ones, after which the program stops. -/
theorem trapped_of_refusal {p : Place} {rest : List Instr} {locals : Array Value} {store : Store} :
    ∃ m, Reaches env
      (p.machine (.i32Const 0xffffffff :: .i32Op .eq :: .branch none [.unreachable] none :: rest)
        [.i32 0xffffffff] locals store) m ∧ m.step env = .trapped .unreachable := by
  have heq : IntOp.eq.apply 0xffffffff 0xffffffff = .ok 1 := by
    simp only [IntOp.apply, ↓reduceIte]
  refine ⟨_, ((p.reaches_i32Const _ _ _ _ _).trans (p.reaches_i32Op _ _ _ _ heq)).trans
    (p.reaches_branch_taken _ _ _ _ (by decide)), rfl⟩

/-- The rounds in which the allocator asks for pages. -/
theorem follows_makeRoom (hgrants : env.grantsPages = s.grantsPages) {p : Place}
    {rest : List Instr} {locals : Array Value} {top : UInt32} (htop : locals[2]? = some (.i32 top))
    (fuel : Nat) {w : World} :
    Follows env
      ((p.within (Place.blockLabel 0 rest [])).machine [.loop none askForPage] [] locals w.store)
      (Source.makeRoom s top fuel w) fun _ w' m' => m' = p.machine rest [] locals w'.store := by
  let q := p.within (Place.blockLabel 0 rest [])
  let round := q.within ⟨0, [.loop none askForPage], [], []⟩
  induction fuel generalizing w with
  | zero => exact True.intro
  | succ fuel ih =>
    have hshl : IntOp.shl.apply (.ofNat w.memory.pageCount) 16 =
        .ok (Source.byteCount w.memory) := rfl
    have hle : IntOp.leU.apply top (Source.byteCount w.memory) =
        .ok (if top ≤ Source.byteCount w.memory then 1 else 0) := rfl
    have hcompare : Reaches env (q.machine [.loop none askForPage] [] locals w.store)
        (round.machine (askForPage.drop 5)
          [.i32 (if top ≤ Source.byteCount w.memory then 1 else 0)] locals w.store) :=
      (q.reaches_loop _ _ _ _ _).trans <| (round.reaches_localGet _ _ _ _ htop).trans <|
        (round.reaches_memorySize _ _ _ _).trans <| (round.reaches_i32Const _ _ _ _ _).trans <|
          (round.reaches_i32Op _ _ _ _ hshl).trans (round.reaches_i32Op _ _ _ _ hle)
    refine .after hcompare ?_
    have hround : Source.makeRoom s top (fuel + 1) w =
        if top ≤ Source.byteCount w.memory then .ok ((), w)
        else if s.grants w.memory.pageCount then
          Source.makeRoom s top fuel { w with memory := w.memory.grow 1 }
        else .error (.trap .unreachable) := rfl
    rw [hround]
    by_cases henough : top ≤ Source.byteCount w.memory
    · rw [if_pos henough, if_pos henough]
      exact ⟨_, p.reaches_brIf_one _ _ _ _ _ _ (by decide), rfl⟩
    rw [if_neg henough, if_neg henough]
    refine .after ((round.reaches_brIf_zero _ _ _ _ _).trans (round.reaches_i32Const _ _ _ _ _)) ?_
    cases hgranted : s.grantsPages (w.memory.pageCount + 1) with
    | false =>
      have hrefused : env.grantsPages (w.store.memory.pageCount + (1 : UInt32).toNat) = false := by
        rw [hgrants]
        exact hgranted
      rw [Setting.grants, hgranted]
      refine .after (round.reaches_memoryGrow_refused _ _ _ _ hrefused) ?_
      exact trapped_of_refusal
    | true =>
      have hgrow : env.grantsPages (w.store.memory.pageCount + (1 : UInt32).toNat) = true := by
        rw [hgrants]
        exact hgranted
      rw [Setting.grants, hgranted, Bool.true_and]
      refine .after (round.reaches_memoryGrow _ _ _ _ hgrow) ?_
      -- the answer is the number of pages before, which may look like a refusal
      by_cases hlast : UInt32.ofNat w.memory.pageCount = 0xffffffff
      · have hanswer : UInt32.ofNat w.store.memory.pageCount = 0xffffffff := hlast
        simp only [hlast, hanswer, ne_eq, not_true_eq_false, decide_false, Bool.false_eq_true,
          ↓reduceIte]
        exact trapped_of_refusal
      · simp only [hlast, ne_eq, not_false_eq_true, decide_true, ↓reduceIte]
        refine .after ((reaches_answer hlast).trans (q.reaches_br_zero _ _ _ _ _)) ?_
        exact ih

/-- The allocator takes a new block. -/
theorem reserveFollows_allocator (hgrants : env.grantsPages = s.grantsPages) {index room : Nat}
    (hindex : env.functions[index]? =
      some (.defined allocator.type ⟨allocator.locals, allocator.body⟩ room)) (fuel : Nat) :
    ReserveFollows env s fuel room index := by
  intro p rest stack locals w size hroom
  let top := w.heap + size
  let q := p.callee rest stack locals 1 room
  let locals₀ : Array Value := #[.i32 size, .i32 0, .i32 0]
  let locals₁ : Array Value := #[.i32 size, .i32 w.heap, .i32 0]
  let locals₂ : Array Value := #[.i32 size, .i32 w.heap, .i32 top]
  -- the new top is stored first, then memory is grown up to it
  have hreserve : Source.reserve s fuel size w =
      ((do
        Source.makeRoom s top fuel
        return w.heap : Eval UInt32) { w with heap := top }) := rfl
  have hargs : [Value.i32 size].length = allocator.type.params.length := rfl
  have hcall : Reaches env (p.machine (.call index :: rest) (.i32 size :: stack) locals w.store)
      (q.machine allocator.body [] locals₀ w.store) :=
    p.reaches_call rest stack locals w.store hindex hroom hargs
  have haddress : 1 < locals₀.size := Nat.one_lt_succ_succ 1
  have hlast : 2 < locals₁.size := Nat.lt_add_one 2
  have hadd : IntOp.add.apply w.heap size = .ok top := rfl
  -- the code up to the block that asks for pages
  have htop : Reaches env (q.machine allocator.body [] locals₀ w.store)
      (q.machine [.block none [.loop none askForPage], .localGet 1] [] locals₂
        { w with heap := top }.store) :=
    (q.reaches_globalGet _ _ _ _ rfl).trans <| (q.reaches_localTee _ _ _ _ _ haddress).trans <|
      (q.reaches_localGet _ _ locals₁ _ rfl).trans <| (q.reaches_i32Op _ _ _ _ hadd).trans <|
        (q.reaches_localTee _ _ locals₁ _ _ hlast).trans (q.reaches_globalSet _ _ _ _ _ _)
  rw [hreserve]
  refine .after (hcall.trans (htop.trans (q.reaches_block _ _ _ _ _))) ?_
  refine .bind (follows_makeRoom hgrants rfl fuel) ?_
  rintro _ w' _ rfl
  refine .after (q.reaches_localGet _ _ locals₂ _ rfl) ?_
  have hreturns : Place.Returns env q [.i32 w.heap] w'.store
      (q.machine [] [.i32 w.heap] locals₂ w'.store) := Place.returns_end locals₂ w'.store rfl rfl
  exact .after (p.reaches_return _ _ _ _ hreturns) (.pure rfl)

end Allocator

section Calls

variable {env : Environment} {s : Setting} {g : SymbolTable} {program : Program}

/-! ### The host

Functions that take one step. -/

/-- The two functions of the host print what the evaluation prints. -/
theorem printFollows_host (hprint : env.functions[printIndex]? = some (.host .print))
    (hstring : env.functions[printStringIndex]? = some (.host .printString))
    (hexports : env.exportsMemory = s.exportsMemory) : PrintFollows env s := by
  intro p rest stack locals w type word
  unfold Source.print
  by_cases htype : type = .string
  · rw [printCode, if_pos htype, if_pos htype, ← hexports]
    exact ⟨_, p.reaches_printString _ _ _ _ hstring word, rfl⟩
  · rw [printCode, if_neg htype, if_neg htype]
    exact ⟨_, p.reaches_print _ _ _ _ hprint word, rfl⟩

/-- A call of a function of the host. -/
theorem follows_printCall (hprint : PrintFollows env s) {type : DataType}
    (htype : type.machineTypes = [.i32]) {p : Place} {rest : List Instr} {stack : List Value}
    {locals : Array Value} {w : World} {args : List Datum}
    (hargs : List.Forall₂ HasType args [type]) :
    Follows env
      (p.machine (printCode type :: rest) ((args.flatMap (·.values)).reverse ++ stack) locals
        w.store)
      (Source.printCall s type args w) fun d w' m' =>
        m' = p.machine rest (d.values.reverse ++ stack) locals w'.store ∧ d.type = .none ∧
          HasType d .none := by
  obtain ⟨d, _, hd, hnil, rfl⟩ := List.forall₂_cons_right_iff.mp hargs
  obtain rfl := List.forall₂_nil_right_iff.mp hnil
  obtain ⟨a, ha, hword⟩ := hd.word htype
  rw [List.flatMap_singleton, ha, Source.printCall]
  refine .bind_of_ok (hword w) (.bind (hprint p rest stack locals w type a) ?_)
  rintro _ w' _ rfl
  exact .pure ⟨rfl, rfl, rfl⟩

/-! ### Constructors

The function that a struct becomes. -/

/-- A function begins with its arguments in its first locals. -/
theorem inLocals_arguments (values more : List Value) :
    InLocals (values ++ more).toArray 0 values := by
  intro k v hk
  have hlt : k < values.length := (List.getElem?_eq_some_iff.mp hk).1
  rw [Nat.zero_add, List.getElem?_toArray, List.getElem?_append_left hlt, hk]

/-- By induction over the fields, each stored from its own parameter. -/
theorem follows_storeFields {fields : List (String × DataType)}
    (hfields : ∀ field ∈ fields, field.2.Storable) {args : List Datum}
    (hargs : List.Forall₂ HasType args (fields.map (·.2))) {p : Place} {rest : List Instr}
    {locals : Array Value} {w : World} {base i : Nat} {block : UInt32}
    (hslots : InLocals locals i (args.flatMap (·.values)))
    (hbase : locals[base]? = some (.i32 block)) :
    Follows env (p.machine (storeFields base i fields ++ rest) [] locals w.store)
      (Source.storeAll block i args w) fun _ w' m' => m' = p.machine rest [] locals w'.store := by
  induction fields generalizing args i w with
  | nil =>
    obtain rfl := List.forall₂_nil_right_iff.mp hargs
    exact .pure rfl
  | cons field fields ih =>
    obtain ⟨d, ds, hd, hds, rfl⟩ := List.forall₂_cons_right_iff.mp hargs
    rw [List.forall_mem_cons] at hfields
    obtain ⟨v, hv, hvtype⟩ := hd.single hfields.1
    rw [List.flatMap_cons, hv] at hslots
    -- a field takes one slot, and the next field is in the slot after it
    have hvalue : locals[i]? = some v := hslots 0 v rfl
    rw [Source.storeAll]
    refine .after ((p.reaches_localGet _ _ _ _ hbase).trans (p.reaches_localGet _ _ _ _ hvalue)) ?_
    refine .bind (follows_store hv hvtype rfl) ?_
    rintro _ w' _ rfl
    exact ih hfields.2 hds hslots.right

/-- A constructor fills a new block with its arguments. -/
theorem follows_constructor {alloc index room need fuel : Nat} {name : String}
    {fields : List (String × DataType)} (hfields : ∀ field ∈ fields, field.2.Storable)
    (hindex : env.functions[index]? = some (.defined (constructor alloc name fields).type
      ⟨(constructor alloc name fields).locals, (constructor alloc name fields).body⟩ room))
    (hreserve : ReserveFollows env s fuel need alloc) (p : Place) (rest : List Instr)
    (stack : List Value) (locals : Array Value) {w : World} {args : List Datum}
    (hroom : p.room + (room + need) ≤ env.stackRoom)
    (hargs : List.Forall₂ HasType args (fields.map (·.2))) :
    Follows env
      (p.machine (.call index :: rest) ((args.flatMap (·.values)).reverse ++ stack) locals w.store)
      ((do
        let block ← Source.reserve s fuel (.ofNat (DataType.structSize fields))
        Source.storeAll block 0 args
        return ⟨.struct name fields, [.i32 block]⟩ : Eval Datum) w) fun d w' m' =>
          m' = p.machine rest (d.values.reverse ++ stack) locals w'.store ∧
            d.type = .struct name fields ∧ HasType d (.struct name fields) := by
  let values := args.flatMap (·.values)
  let base := (DataType.machineTypesAll (fields.map (·.2))).length
  let q := p.callee rest stack locals 1 room
  let locals₀ := (values ++ [Value.i32 0]).toArray
  have hlength : values.length = base := by
    rw [← List.length_map (·.type), map_type_flatMap hargs]
  have hbase : base < locals₀.size := by
    simp [locals₀, hlength]
  have hcall : Reaches env
      (p.machine (.call index :: rest) (values.reverse ++ stack) locals w.store)
      (q.machine (.i32Const (.ofNat (DataType.structSize fields)) :: .call alloc ::
        .localSet base :: (storeFields base 0 fields ++ [.localGet base])) [] locals₀ w.store) :=
    p.reaches_call rest stack locals w.store hindex (by omega) hlength
  have hinner : q.room + need ≤ env.stackRoom := by
    rw [← Nat.add_assoc] at hroom
    exact hroom
  refine .after (hcall.trans (q.reaches_i32Const _ _ _ _ _)) ?_
  refine .bind (hreserve q _ [] locals₀ w _ hinner) ?_
  rintro block w₁ _ rfl
  refine .after (q.reaches_localSet _ _ _ _ _ hbase) ?_
  -- the block is in the local after those of the arguments
  let locals₁ := locals₀.setIfInBounds base (.i32 block)
  have hslots : InLocals locals₁ 0 values := by
    have hagrees : Agrees base locals₀ locals₁ :=
      ⟨by simp [locals₁], fun i hi => Array.getElem?_setIfInBounds_ne (by omega)⟩
    exact (inLocals_arguments values _).agrees hagrees (by omega)
  have hblock : locals₁[base]? = some (.i32 block) := by
    simp [locals₁, hbase]
  refine .bind (follows_storeFields hfields hargs hslots hblock) ?_
  rintro _ w₂ _ rfl
  refine .after (q.reaches_localGet _ _ _ _ hblock) ?_
  have hreturns : Place.Returns env q [.i32 block] w₂.store
      (q.machine [] [.i32 block] locals₁ w₂.store) := Place.returns_end locals₁ w₂.store rfl rfl
  exact .after (p.reaches_return _ _ _ _ hreturns) (.pure ⟨rfl, rfl, rfl⟩)

/-! ### Functions

From the statements of a body to a call. -/

/-- Arguments are the parameters of a function, each in its slots. -/
theorem Lowering.Parameters.shows {t t' : SymbolTable} {params : List (Field × DataType)}
    (h : Parameters t params t') {args : List Datum}
    (hargs : List.Forall₂ HasType args (params.map (·.2))) {locals : Array Value}
    (hslots : InLocals locals t.nextSlot (args.flatMap (·.values)))
    {scope : List (String × Datum)} {outer : Scopes}
    (hshows : Shows locals (scope :: outer) t.scopes) (w : World) :
    ∃ scope', Source.parameterScope params args scope w = .ok (scope', w) ∧
      Shows locals (scope' :: outer) t'.scopes := by
  induction h generalizing args scope with
  | nil =>
    obtain rfl := List.forall₂_nil_right_iff.mp hargs
    exact ⟨scope, rfl, hshows⟩
  | @cons t t' field type rest _ _ _ ih =>
    obtain ⟨d, ds, hd, hds, rfl⟩ := List.forall₂_cons_right_iff.mp hargs
    rw [List.flatMap_cons] at hslots
    have hlater := hslots.right
    rw [hd.length] at hlater
    -- the first parameter holds the first argument in the slots at the front
    have hholds : Holds locals (field.name, ⟨type, d.values⟩)
        (parameterVariable t field.name type) := ⟨rfl, rfl, hd, hslots.left⟩
    exact ih hds hlater (hshows.push hholds)

/-- What the body of a function ends with, the function gives to the caller. A body that ends
without a result it owes runs into the trap behind it. -/
theorem follows_functionResult {result : DataType} {t : SymbolTable} {p : Place} {rest : List Instr}
    {stack : List Value} {locals : Array Value} {room size : Nat} {flow : Flow} {w : World}
    {m : Machine}
    (h : Ends env result t (p.callee rest stack locals result.width room)
      (if result.isNone then [] else [.unreachable]) size flow w m) :
    Follows env m (Source.functionResult result flow w) fun d w' m' =>
      m' = p.machine rest (d.values.reverse ++ stack) locals w'.store ∧ d.type = result ∧
        HasType d result := by
  cases flow with
  | returned values =>
    obtain ⟨htypes, hreturns⟩ := h
    exact .after (p.reaches_return _ _ _ _ hreturns) (.pure ⟨rfl, rfl, htypes⟩)
  | next scopes =>
    obtain ⟨locals', rfl, -, -⟩ := h
    rw [Source.functionResult]
    -- a body that ends without a return gives nothing back, or runs into the trap behind it
    cases hnone : result.isNone with
    | true =>
      have htypes := DataType.machineTypes_of_isNone hnone
      have harity : ([] : List Value).length = result.width := by
        rw [DataType.width, htypes]
        rfl
      let q := p.callee rest stack locals result.width room
      have hreturns : Place.Returns env q [] w.store (q.machine [] [] locals' w.store) :=
        Place.returns_end locals' w.store rfl harity
      exact .after (p.reaches_return _ _ _ _ hreturns) (.pure ⟨rfl, rfl, htypes.symm⟩)
    | false => exact ⟨_, .refl, rfl⟩

/-- A function does what its body does, and then gives its result to the caller. -/
theorem follows_function (hidle : Idle g) {header : FunctionHeader} {body : List Stmt}
    {signature : Signature} {function : Function}
    (hlength : signature.params.length = header.params.length)
    (hcode : FunctionCode program g header body signature function) {index room : Nat}
    (hindex : env.functions[index]? =
      some (.defined function.type ⟨function.locals, function.body⟩ room))
    {x : Interpreter} {need : Nat}
    (hb : ∀ scratchBase t, g.SameGlobals t → Backed env x need (FunctionContext.withSymbols
      ⟨functionIndices program, allocatorIndex program, scratchBase⟩ t))
    {p : Place} {rest : List Instr} {stack : List Value} {locals : Array Value} {w : World}
    {args : List Datum} (hroom : p.room + (room + need) ≤ env.stackRoom)
    (hargs : List.Forall₂ HasType args signature.params) :
    Follows env
      (p.machine (.call index :: rest) ((args.flatMap (·.values)).reverse ++ stack) locals w.store)
      ((do
        let scope ← Source.parameterScope (header.params.zip signature.params) args []
        let flow ← Source.execStmts x body [scope]
        Source.functionResult signature.result flow : Eval Datum) w) fun d w' m' =>
          m' = p.machine rest (d.values.reverse ++ stack) locals w'.store ∧
            d.type = signature.result ∧ HasType d signature.result := by
  let values := args.flatMap (·.values)
  let q := p.callee rest stack locals signature.result.width room
  have hparamTypes : (header.params.zip signature.params).map (·.2) = signature.params :=
    List.map_snd_zip (Nat.le_of_eq hlength)
  have hvalues : values.length = (DataType.machineTypesAll signature.params).length := by
    rw [← List.length_map (·.type), map_type_flatMap hargs]
  -- what the frame of this call takes is left over for the calls in its body
  have hinner : q.room + need ≤ env.stackRoom := by
    rw [← Nat.add_assoc] at hroom
    exact hroom
  cases hcode with
  | @intro t t' scratch code hparams hbody =>
    obtain ⟨hlayout, -⟩ := hparams.layout (layout_enterFunction hidle) rfl
    obtain ⟨-, hframe⟩ := hparams.frame hidle hbody
    rw [List.nil_append, hparamTypes] at hlayout
    have hdeclared : t.declared = [] := (hparams.layout (layout_enterFunction hidle) rfl).2
    have hslots : t.nextSlot = values.length := by
      rw [hlayout.nextSlot, SymbolTable.slotTypes, hdeclared, List.flatMap_nil, List.append_nil,
        hvalues]
    -- the arguments, then zeros for the declared variables and the scratch
    let locals₀ := (values ++
      (t'.declared.flatMap (·.type.machineTypes) ++ scratch).map Value.zero).toArray
    have hsize : t'.nextSlot + scratch.length ≤ locals₀.size := by
      simp only [locals₀, List.size_toArray, List.length_append, List.length_map]
      omega
    -- before the parameters are bound nothing is visible
    have hopen : Shows locals₀ [[]] g.enterFunction.scopes := by
      refine .cons .nil ?_
      rw [hidle.scopes]
      exact .nil
    obtain ⟨scope, hscope, hshows⟩ := hparams.shows (hparamTypes.symm ▸ hargs)
      (inLocals_arguments values _) hopen w
    have hglobals := (SymbolTable.sameGlobals_enterFunction g).trans hparams.sameGlobals
    have hscopes := (hparams.scopes (List.cons_ne_nil _ _)).1
    refine .bind_of_ok hscope
      (.after (p.reaches_call rest stack locals w.store hindex (by omega) hvalues) ?_)
    refine .bind (hbody.follows (hb t'.nextSlot) hlayout hscopes hglobals q _ locals₀ w [scope]
      hinner rfl ⟨Nat.le_refl _, hsize⟩ hshows) ?_
    exact fun _ _ _ hends => follows_functionResult hends

/-! ### Calls of any depth

The induction on the depth, in which calls at a smaller depth may be relied on. -/

/-- The function of a name is the one that is declared. -/
theorem Compiled.function?_eq {functions : List Function} (h : Compiled g program functions)
    (hs : s.program = program) {location : Location} {header : FunctionHeader} {body : List Stmt}
    (hstmt : .function location header body ∈ program.statements) :
    s.function? header.name = some (header, body) := by
  have hnodup : (program.statements.filterMap declaredName?).Nodup :=
    h.names.nodup_iff.mp h.registry.nodup
  rw [Setting.function?, hs]
  generalize program.statements = stmts at hstmt hnodup
  induction stmts with
  | nil => cases hstmt
  | cons stmt stmts ih =>
    rcases List.mem_cons.mp hstmt with rfl | hmem
    · simp
    -- an earlier declaration has another name, since all names are different
    have hlater : header.name ∈ stmts.filterMap declaredName? :=
      List.mem_filterMap.mpr ⟨_, hmem, rfl⟩
    rw [List.findSome?_cons]
    cases stmt with
    | function _ other _ =>
      simp only [List.filterMap_cons, declaredName?, List.nodup_cons] at hnodup
      have hne : other.name ≠ header.name := fun heq => hnodup.1 (heq ▸ hlater)
      simp only [hne, ↓reduceIte]
      exact ih hmem hnodup.2
    | struct _ _ =>
      simp only [List.filterMap_cons, declaredName?, List.nodup_cons] at hnodup
      exact ih hmem hnodup.2
    | _ => exact ih hmem hnodup

/-- What is declared does not take the name of a function of the host. -/
theorem Compiled.ne_host {functions : List Function} (h : Compiled g program functions)
    {name : String} (hname : name ∈ g.names) : name ≠ printName ∧ name ≠ printStringName := by
  have hfree := h.registry.free name hname
  refine ⟨?_, ?_⟩
  · rintro rfl
    exact hfree (by decide)
  · rintro rfl
    exact hfree (by decide)

theorem ReserveFollows.mono {fuel need need' index : Nat}
    (h : ReserveFollows env s fuel need index) (hle : need ≤ need') :
    ReserveFollows env s fuel need' index := by
  intro p rest stack locals w size hroom
  exact h p rest stack locals w size (by omega)

variable {functions : List Function} {most : Nat}

theorem Loaded.printFollows (h : Loaded env s functions most) : PrintFollows env s :=
  printFollows_host h.print h.printString h.exportsMemory

theorem Loaded.reserveFollows (hcompiled : Compiled g program functions)
    (h : Loaded env s (functions ++ [allocator]) most) (fuel : Nat) :
    ReserveFollows env s fuel most (allocatorIndex program) := by
  have hlast : (functions ++ [allocator])[functions.length]? = some allocator := by simp
  obtain ⟨room, hroom, hindex⟩ := h.defined _ _ hlast
  have hposition : hostImports.length + functions.length = allocatorIndex program := by
    rw [allocatorIndex, declaredNames, declaredNames_eq hcompiled.codes, List.length_map]
  rw [hposition] at hindex
  exact (reserveFollows_allocator h.grantsPages hindex fuel).mono hroom

theorem Loaded.declared {function : Function} {k : Nat}
    (h : Loaded env s (functions ++ [allocator]) most) (hfunction : functions[k]? = some function) :
    ∃ room ≤ most, env.functions[hostImports.length + k]? =
      some (.defined function.type ⟨function.locals, function.body⟩ room) := by
  have hlt : k < functions.length := (List.getElem?_eq_some_iff.mp hfunction).1
  exact h.defined k function (by rw [List.getElem?_append_left hlt, hfunction])

/-- What a call of a declared struct means. -/
theorem call_struct (hcompiled : Compiled g program functions) (hsymbols : s.symbols = g)
    {name : String} {fields : List (String × DataType)} (hfields : g.struct? name = some fields)
    (fuel : Nat) (args : List Datum) :
    Source.call s (fuel + 1) name args = (do
      let block ← Source.reserve s fuel (.ofNat (DataType.structSize fields))
      Source.storeAll block 0 args
      return ⟨.struct name fields, [.i32 block]⟩) := by
  have hname : name ∈ g.names := by
    refine List.mem_append_right _ (SymbolTable.lookup_isSome_iff.mp ?_)
    rw [← SymbolTable.struct?, hfields]
    rfl
  obtain ⟨hprint, hstring⟩ := hcompiled.ne_host hname
  rw [Source.call, if_neg hprint, if_neg hstring, hsymbols, hcompiled.function?_eq_none hfields,
    hfields]
  cases s.function? name <;> rfl

/-- What a call of a declared function means. -/
theorem call_function (hcompiled : Compiled g program functions) (hprogram : s.program = program)
    (hsymbols : s.symbols = g) {location : Location} {header : FunctionHeader} {body : List Stmt}
    {signature : Signature} (hstmt : .function location header body ∈ program.statements)
    (hsignature : g.function? header.name = some signature) (fuel : Nat) (args : List Datum) :
    Source.call s (fuel + 1) header.name args = (do
      let scope ← Source.parameterScope (header.params.zip signature.params) args []
      let flow ← Source.execStmts ⟨s, fuel, Source.call s fuel⟩ body [scope]
      Source.functionResult signature.result flow) := by
  have hname : header.name ∈ g.names := by
    refine List.mem_append_left _ (SymbolTable.lookup_isSome_iff.mp ?_)
    rw [← SymbolTable.function?, hsignature]
    rfl
  obtain ⟨hprint, hstring⟩ := hcompiled.ne_host hname
  rw [Source.call, if_neg hprint, if_neg hstring, hsymbols, hsignature,
    hcompiled.function?_eq hprogram hstmt]

/-- A call does what it means, if what the callee calls does. -/
theorem callFollows_succ (hcompiled : Compiled g program functions)
    (hloaded : Loaded env s (functions ++ [allocator]) most) (hprogram : s.program = program)
    (hsymbols : s.symbols = g) {fuel need : Nat} (hmost : most ≤ need)
    (hb : ∀ scratchBase t, g.SameGlobals t → Backed env ⟨s, fuel, Source.call s fuel⟩ need
      (FunctionContext.withSymbols
        ⟨functionIndices program, allocatorIndex program, scratchBase⟩ t))
    {callee : String} {signature : Signature} {index : Nat}
    (hresolves : Resolves g program functions callee signature index) :
    CallFollows env ⟨s, fuel + 1, Source.call s (fuel + 1)⟩ (most + need) callee signature
      index := by
  intro p rest stack locals w args hroom hargs
  show Follows env _ (Source.call s (fuel + 1) callee args w) _
  -- the body of a function is run with less fuel, and the calls in it are those backed already
  cases hresolves with
  | print =>
    rw [Source.call, if_pos rfl]
    exact follows_printCall hloaded.printFollows rfl hargs
  | printString =>
    rw [Source.call, if_neg (by decide), if_pos rfl]
    exact follows_printCall hloaded.printFollows rfl hargs
  | @struct k _ fields hfields hfunction =>
    obtain ⟨room, hle, hindex⟩ := hloaded.declared hfunction
    rw [call_struct hcompiled hsymbols hfields]
    exact follows_constructor (hcompiled.fields callee fields hfields) hindex
      ((hloaded.reserveFollows hcompiled fuel).mono hmost) _ _ _ _ (by omega) hargs
  | @function k location header body _ function hstmt hsignature hlength hfunction hcode =>
    obtain ⟨room, hle, hindex⟩ := hloaded.declared hfunction
    rw [call_function hcompiled hprogram hsymbols (List.mem_of_getElem? hstmt) hsignature]
    exact follows_function hcompiled.idle hlength hcode hindex hb (by omega) hargs

/-- Code may rely on what it calls, if calls of that depth do what they mean. -/
theorem backed_of_callFollows (hcompiled : Compiled g program functions)
    (hloaded : Loaded env s (functions ++ [allocator]) most) (hsymbols : s.symbols = g)
    {fuel need : Nat} (hmost : most ≤ need)
    (hcalls : ∀ {callee signature index}, Resolves g program functions callee signature index →
      CallFollows env ⟨s, fuel, Source.call s fuel⟩ need callee signature index)
    (scratchBase : Nat) (t : SymbolTable) (ht : g.SameGlobals t) :
    Backed env ⟨s, fuel, Source.call s fuel⟩ need (FunctionContext.withSymbols
      ⟨functionIndices program, allocatorIndex program, scratchBase⟩ t) := by
  refine ⟨hloaded.printFollows, ?_, (hloaded.reserveFollows hcompiled fuel).mono hmost, ?_⟩
  · intro callee signature index hcallee hindex
    have hcallee' : g.callable? callee = some signature := by
      rw [← ht.callable?]
      exact hcallee
    exact hcalls (hcompiled.resolves rfl hcallee' hindex)
  · show s.symbols.strings = t.strings
    rw [hsymbols, ht.strings]

/-- A call does what it means. Each level of calls takes at most the room of the largest
function. -/
theorem callFollows (hcompiled : Compiled g program functions)
    (hloaded : Loaded env s (functions ++ [allocator]) most) (hprogram : s.program = program)
    (hsymbols : s.symbols = g) (fuel : Nat) {callee : String} {signature : Signature}
    {index : Nat} (hresolves : Resolves g program functions callee signature index) :
    CallFollows env ⟨s, fuel, Source.call s fuel⟩ ((fuel + 1) * most) callee signature index := by
  induction fuel generalizing callee signature index with
  | zero => exact fun _ _ _ _ _ _ _ _ => True.intro
  | succ fuel ih =>
    have hmost : most ≤ (fuel + 1) * most := Nat.le_mul_of_pos_left _ (Nat.succ_pos fuel)
    have hroom : most + (fuel + 1) * most = (fuel + 1 + 1) * most := by
      rw [Nat.succ_mul (fuel + 1), Nat.add_comm]
    rw [← hroom]
    exact callFollows_succ hcompiled hloaded hprogram hsymbols hmost
      (backed_of_callFollows hcompiled hloaded hsymbols hmost ih) hresolves

end Calls

end WasmCompiler
