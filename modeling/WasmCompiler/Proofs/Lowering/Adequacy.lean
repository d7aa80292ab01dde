import WasmCompiler.Proofs.Lowering.Code
import WasmCompiler.Proofs.Typing.Agreement
import WasmCompiler.Proofs.Typing.Statements

/-!
# Checked programs have code

If an expression or a statement is accepted by the checker, its lowering succeeds and gives code
that belongs to it. This takes that literals can be used and that two forms do not occur, on which
lowering goes astray (`Expr.Admissible`): array literals that end in `[]`, and tuples that consist
of one float.

Checking and lowering a statement leave the same table, so the statement after it is lowered in the
table it was checked in.

`translates` is the induction over expressions, with one lemma for each form before it, and
`stmt_adequate` the one over statements. Both give a derivation of `ExprCode` or `StmtCode`, which
is all that later proofs look at.
-/

namespace WasmCompiler

open Wasm (Instr ValueType)

/-- What is asked of an expression beyond having a type. -/
def Expr.Admissible (t : SymbolTable) (e : Expr) : Prop :=
  ∀ s ∈ e.parts, s.LiteralFits t.strings ∧ s.endsInEmptyArray = false ∧
    ∀ type, typeOf t s = .ok type → type.AvoidsFloatTuples

/-- What is asked of an expression is asked of its parts as well. -/
theorem Expr.Admissible.part {t : SymbolTable} {e s : Expr} (h : e.Admissible t)
    (hs : s ∈ e.parts) : s.Admissible t :=
  fun r hr => h r (Expr.parts_trans e hs hr)

/-- In particular its own type holds no tuple of one float. -/
theorem Expr.Admissible.avoids {t : SymbolTable} {e : Expr} {type : DataType}
    (h : e.Admissible t) (htype : typeOf t e = .ok type) : type.AvoidsFloatTuples :=
  (h e e.self_mem_parts).2.2 type htype

/-- Every function that can be called has a number. -/
def LoweringContext.Complete (c : LoweringContext) : Prop :=
  ∀ callee signature, c.symbols.callable? callee = some signature →
    ∃ index, c.index? callee = some index

namespace Lowering

variable {c : LoweringContext}

/-! ### Parts of expressions

Steps of the lowering that cannot fail after checking. -/

theorem calleeIndex_eq {callee : String} {index : Nat} (h : c.index? callee = some index)
    (location : Location) (s : List ValueType) :
    calleeIndex c location callee s = .ok (index, s) := by
  unfold LoweringContext.index? at h
  unfold calleeIndex
  split
  · rename_i hprint
    rw [if_pos hprint] at h
    rw [← Option.some.inj h]
    rfl
  · rename_i hprint
    rw [if_neg hprint] at h
    split
    · rename_i hstring
      rw [if_pos hstring] at h
      rw [← Option.some.inj h]
      rfl
    · rename_i hstring
      rw [if_neg hstring] at h
      rw [h]
      rfl

/-- Scratch locals are handed out one after the other behind those in use. -/
theorem allocScratches_eq (types : List ValueType) (s : List ValueType) :
    allocScratches c types s =
      .ok ((List.range types.length).map (c.scratchBase + s.length + ·), s ++ types) := by
  induction types generalizing s with
  | nil => simp [allocScratches]
  | cons type types ih =>
    rw [allocScratches, ScratchM.bind_of_ok (allocScratch_apply c type),
      ScratchM.bind_of_ok (ih _)]
    simp only [ScratchM.pure_apply, List.append_assoc, List.singleton_append, List.length_append,
      List.length_cons, List.length_nil, List.range_succ_eq_map, List.map_cons, List.map_map,
      Nat.add_zero]
    congr 4
    funext k
    simp only [Function.comp_apply]
    omega

/-- An element ends where the tuple does, at the latest. -/
theorem elementStart_add_width_le {elements : List DataType} {i : Nat} {type : DataType}
    (h : elements[i]? = some type) :
    elementStart elements i + type.width ≤ (DataType.machineTypesAll elements).length := by
  rw [DataType.machineTypesAll_split h, elementStart, DataType.width, List.length_append,
    List.length_append]
  omega

/-- The slots of an element of a tuple, among those of the whole. -/
theorem take_drop_range {n start width : Nat} (h : start + width ≤ n) :
    ((List.range n).drop start).take width = (List.range width).map (start + ·) := by
  refine List.ext_getElem ?_ fun k hk _ => ?_
  · simp only [List.length_take, List.length_drop, List.length_range, List.length_map]
    omega
  · simp

/-- The tuple is written to fresh scratch locals, and those of the element are read. -/
theorem spillTuple_eq {elements : List DataType} {i : Nat} {type : DataType}
    (h : elements[i]? = some type) (s : List ValueType) :
    spillTuple c elements i s =
      .ok (setSlots (c.scratchBase + s.length) (DataType.machineTypesAll elements).length ++
          getSlots (c.scratchBase + s.length + elementStart elements i) type.width,
        s ++ DataType.machineTypesAll elements) := by
  have hfits := elementStart_add_width_le h
  rw [spillTuple, ScratchM.bind_of_ok (allocScratches_eq _ s)]
  simp only [ScratchM.pure_apply, elementType_eq h, List.map_reverse, List.map_map,
    ← List.map_drop, ← List.map_take, take_drop_range hfits, setSlots, getSlots]
  congr 3
  refine List.map_congr_left fun k _ => ?_
  simp only [Function.comp_apply, Nat.add_assoc]

/-! ### Expressions in their places

An expression together with the type that its place asks for. -/

/-- Where the expression has a type, it is lowered to code of that type. -/
def Translates (c : LoweringContext) (e : Expr) : Prop :=
  ∀ type s, typeOf c.symbols e = .ok type →
    ∃ l s', lowerExpr c e s = .ok (l, s') ∧ l.type = type ∧ ExprCode c s e type l.code s'

/-- An expression that fits a place has code of the type of the place, and its cell is the same. -/
theorem Translates.place {e : Expr} (h : Translates c e) {expected : DataType}
    {context : Mismatch.Context}
    (hplace : requireType e (typeOf c.symbols e) expected context = .ok ()) (s : List ValueType) :
    ∃ l s', lowerExpr c e s = .ok (l, s') ∧ cellType l.type = cellType expected ∧
      ExprCode c s e expected l.code s' := by
  rcases requireType_eq_ok_iff.mp hplace with ⟨hempty, harray⟩ | htype
  · obtain ⟨location, rfl⟩ := Expr.isEmptyArray_iff.mp hempty
    match expected, harray with
    | .array element, _ =>
      refine ⟨⟨_, .array .i32⟩, _, ?_, rfl, .emptyArray⟩
      rw [lowerExpr, ScratchM.bind_of_ok (allocScratch_apply c .i32), lowerItems]
      rw [ScratchM.bind_of_ok (ScratchM.pure_apply _)]
      rfl
  · obtain ⟨l, s', hlower, rfl, hcode⟩ := h expected s htype
    exact ⟨l, s', hlower, rfl, hcode⟩

/-- By induction over the arguments, each in the place of its parameter. -/
theorem lowerArgs_adequate {args : List Expr} (hargs : ∀ e ∈ args, Translates c e)
    {params : List DataType} (hlength : args.length = params.length) {callee : String}
    {position : Nat} (hcheck : checkArgs c.symbols callee position args params = .ok ())
    (s : List ValueType) :
    ∃ code s', lowerArgs c args s = .ok (code, s') ∧ ExprsCode c s args params code s' := by
  induction args generalizing params position s with
  | nil =>
    obtain rfl : params = [] := List.eq_nil_of_length_eq_zero hlength.symm
    exact ⟨[], s, rfl, .nil⟩
  | cons arg args ih =>
    match params with
    | [] => cases hlength
    | param :: params =>
      rw [List.forall_mem_cons] at hargs
      obtain ⟨harg, hcheck⟩ := checkArgs_cons_iff.mp hcheck
      -- each argument takes its scratch locals behind those of the ones before it
      obtain ⟨l, s₁, hlower, -, hcode⟩ := hargs.1.place harg s
      obtain ⟨code, s', hrest, hcodes⟩ := ih hargs.2 (Nat.succ.inj hlength) hcheck s₁
      refine ⟨l.code ++ code, s', ?_, .cons hcode hcodes⟩
      rw [lowerArgs, ScratchM.bind_of_ok hlower, ScratchM.bind_of_ok hrest]
      rfl

/-- By induction over the elements of a tuple, whose types are those that were found. -/
theorem lowerElements_adequate {items : List Expr} (hitems : ∀ e ∈ items, Translates c e)
    {types : List DataType} (htypes : elementTypes c.symbols items = .ok types)
    (s : List ValueType) :
    ∃ code s', lowerElements c items s = .ok ((code, types), s') ∧
      ExprsCode c s items types code s' := by
  induction items generalizing types s with
  | nil =>
    obtain rfl := Except.ok.inj htypes
    exact ⟨[], s, rfl, .nil⟩
  | cons item items ih =>
    rw [List.forall_mem_cons] at hitems
    obtain ⟨type, others, htype, -, hothers, rfl⟩ := elementTypes_cons_iff.mp htypes
    obtain ⟨l, s₁, hlower, rfl, hcode⟩ := hitems.1 type s htype
    obtain ⟨code, s', hrest, hcodes⟩ := ih hitems.2 hothers s₁
    refine ⟨l.code ++ code, s', ?_, .cons hcode hcodes⟩
    rw [lowerElements, ScratchM.bind_of_ok hlower, ScratchM.bind_of_ok hrest]
    rfl

/-- By induction over the items: all have the type of the first, so the cells have the same size. -/
theorem lowerItems_adequate {items : List Expr} (hitems : ∀ e ∈ items, Translates c e)
    {element : DataType}
    (hcheck : ∀ e ∈ items,
      requireType e (typeOf c.symbols e) element .arrayElement = .ok ())
    (base cell : Nat) (before : DataType) (s : List ValueType) :
    ∃ code last s', lowerItems c base cell before items s = .ok ((code, last), s') ∧
      ItemsCode c base cell element s items code s' := by
  induction items generalizing cell before s with
  | nil => exact ⟨[], before, s, rfl, .nil⟩
  | cons item items ih =>
    rw [List.forall_mem_cons] at hitems hcheck
    obtain ⟨l, s₁, hlower, hcell, hcode⟩ := hitems.1.place hcheck.1 s
    obtain ⟨code, last, s', hrest, hcodes⟩ := ih hitems.2 hcheck.2 (cell + 1) l.type s₁
    -- the cell is that of the element type, though the item may be an empty array
    have hstore : storeCell l.type cell = storeCell element cell := by
      simp only [storeCell, hcell]
    refine ⟨_, last, s', ?_, .cons hcode hcodes⟩
    rw [lowerItems, ScratchM.bind_of_ok hlower, ScratchM.bind_of_ok hrest, ← hstore]
    rfl

/-! ### Expressions -/

/-- The operand has the type that the operator asks for. -/
theorem translates_unary {location : Location} {op : UnaryOp} {operand : Expr}
    (h : Translates c operand) : Translates c (.unary location op operand) := by
  intro type s htype
  obtain ⟨rfl, htype, hnumeric⟩ := typeOf_unary_iff.mp htype
  obtain ⟨l, s', hlower, rfl, hcode⟩ := h type s htype
  refine ⟨⟨l.code ++ negateCode l.type, l.type⟩, s', ?_, rfl, .negate hnumeric hcode⟩
  rw [lowerExpr, ScratchM.bind_of_ok hlower]
  rfl

/-- A logical operator is a conditional: its right operand is in one of the branches. -/
theorem translates_logical {location : Location} {op : BinaryOp} {left right : Expr}
    (hop : op.isLogical) (hleft : Translates c left) (hright : Translates c right) :
    Translates c (.binary location op left right) := by
  intro type s htype
  obtain ⟨tl, tr, htl, htr, hresult⟩ := typeOf_binary_iff.mp htype
  -- arithmetic and comparison are no logical operators
  obtain ⟨rfl, rfl, rfl⟩ : tl = .i32 ∧ tr = .i32 ∧ type = .i32 := by
    rcases op.result?_cases hresult with ⟨h, -⟩ | ⟨h, -⟩ | ⟨-, h⟩
    · cases op <;> cases h <;> cases hop
    · cases op <;> cases h <;> cases hop
    · exact h
  obtain ⟨l, s₁, hl, hltype, hlcode⟩ := hleft _ s htl
  obtain ⟨r, s', hr, hrtype, hrcode⟩ := hright _ s₁ htr
  cases op <;> cases hop
  · refine ⟨⟨_, _⟩, s', ?_, rfl, .and hlcode hrcode⟩
    rw [lowerExpr, ScratchM.bind_of_ok hl, ScratchM.bind_of_ok hr]
    rfl
  · refine ⟨⟨_, _⟩, s', ?_, rfl, .or hlcode hrcode⟩
    rw [lowerExpr, ScratchM.bind_of_ok hl, ScratchM.bind_of_ok hr]
    rfl

/-- The operands of an operator can be stored if they are not tuples of one float. -/
theorem storable_operands {op : BinaryOp} {tl tr type : DataType} (hop : op.isLogical = false)
    (hresult : op.result? tl tr = some type) (hl : tl.AvoidsFloatTuples) :
    tl.Storable ∧ tr.Storable := by
  rcases op.result?_cases hresult with ⟨-, h, -⟩ | ⟨-, h | ⟨rfl, hfits⟩, -⟩ | ⟨h, -⟩
  · exact ⟨DataType.storable_of_isNumeric h.1, DataType.storable_of_isNumeric h.2⟩
  · exact ⟨DataType.storable_of_isNumeric h.1, DataType.storable_of_isNumeric h.2⟩
  · have hstorable := DataType.storable_of_fitsCell hfits hl.self
    exact ⟨hstorable, hstorable⟩
  · rw [hop] at h
    cases h

/-- The types of the operands determine the instruction. -/
theorem translates_operator {location : Location} {op : BinaryOp} {left right : Expr}
    (hop : op.isLogical = false) (hadmissible : left.Admissible c.symbols)
    (hleft : Translates c left) (hright : Translates c right) :
    Translates c (.binary location op left right) := by
  intro type s htype
  obtain ⟨tl, tr, htl, htr, hresult⟩ := typeOf_binary_iff.mp htype
  obtain ⟨l, s₁, hl, rfl, hlcode⟩ := hleft _ s htl
  obtain ⟨r, s', hr, rfl, hrcode⟩ := hright _ s₁ htr
  -- both operands fit a cell, so each is one value on the stack
  obtain ⟨hlstore, hrstore⟩ := storable_operands hop hresult (hadmissible.avoids htl)
  refine ⟨⟨_, _⟩, s', ?_, rfl, .operator hop hresult hlstore hrstore hlcode hrcode⟩
  rw [lowerExpr]
  · rw [ScratchM.bind_of_ok hl, ScratchM.bind_of_ok hr, hresult]
    rfl
  all_goals
    rintro rfl
    cases hop

/-- The function is registered with as many parameters as there are arguments, and has a number. -/
theorem translates_call (hc : c.Complete) {location : Location} {callee : String}
    {args : List Expr} (hargs : ∀ e ∈ args, Translates c e) :
    Translates c (.call location callee args) := by
  intro type s htype
  obtain ⟨signature, hcallee, hlength, hcheck, rfl⟩ := typeOf_call_iff.mp htype
  obtain ⟨index, hindex⟩ := hc callee signature hcallee
  obtain ⟨code, s', hlower, hcode⟩ := lowerArgs_adequate hargs hlength hcheck s
  refine ⟨⟨_, _⟩, s', ?_, rfl, .call hcallee hindex hcode⟩
  rw [lowerExpr, ScratchM.bind_of_ok hlower, ScratchM.bind_of_ok (calleeIndex_eq hindex _ _)]
  simp only [callResult, hcallee]
  rfl

/-- The field is known, so it has an offset in the struct. -/
theorem translates_member (hc : c.symbols.WellFormed) {location : Location} {base : Expr}
    {name : String} (hadmissible : base.Admissible c.symbols) (hbase : Translates c base) :
    Translates c (.member location base name) := by
  intro type s htype
  obtain ⟨struct, fields, i, htb, hfield⟩ := typeOf_member_iff.mp htype
  obtain ⟨b, s', hlower, hbtype, hcode⟩ := hbase _ s htb
  have hstorable := DataType.storable_field (hc.typeOf base htb) (hadmissible.avoids htb) hfield
  refine ⟨⟨_, _⟩, s', ?_, rfl, .field hfield hstorable hcode⟩
  rw [lowerExpr, ScratchM.bind_of_ok hlower]
  simp only [hbtype, fieldOf, DataType.field?, hfield]
  rfl

/-- A tuple variable is recognised by its name. -/
theorem tupleVariable?_eq (base : Expr) {elements : List DataType}
    (h : typeOf c.symbols base = .ok (.tuple elements)) (s : List ValueType) :
    (∃ l name var, base = .identifier l name ∧ c.symbols.lookupVariable? name = some var ∧
        var.type = .tuple elements ∧ tupleVariable? c base s = .ok (some (var, elements), s)) ∨
      tupleVariable? c base s = .ok (none, s) := by
  cases base with
  | identifier l name =>
    obtain ⟨var, hvar, htuple⟩ := typeOf_identifier_iff.mp h
    refine .inl ⟨l, name, var, rfl, hvar, htuple, ?_⟩
    simp only [tupleVariable?, hvar, htuple]
    rfl
  | _ => exact .inr rfl

/-- An array is no tuple, so no variable of one is looked for. -/
theorem tupleVariable?_eq_none (base : Expr) {type : DataType}
    (h : typeOf c.symbols base = .ok (.array type)) (s : List ValueType) :
    tupleVariable? c base s = .ok (none, s) := by
  cases base with
  | identifier l name =>
    obtain ⟨var, hvar, harray⟩ := typeOf_identifier_iff.mp h
    simp only [tupleVariable?, hvar, harray]
    rfl
  | _ => rfl

/-- The index of a tuple is a literal in range. -/
theorem elementPosition_eq {elements : List DataType} {index : Expr} {i : Nat}
    (h : index.elementIndex? elements.length = some i) (s : List ValueType) :
    elementPosition elements index s = .ok (i, s) := by
  simp only [elementPosition, h]
  rfl

/-- Arrays are read through their address, tuples through their slots. -/
theorem translates_index (hc : c.symbols.WellFormed) {location : Location} {base index : Expr}
    (hadmissible : base.Admissible c.symbols) (hbase : Translates c base)
    (hindex : Translates c index) : Translates c (.index location base index) := by
  intro type s htype
  rcases typeOf_index_iff.mp htype with ⟨htb, hti⟩ | ⟨elements, i, htb, hi, helement⟩
  · obtain ⟨b, s₁, hlower, hbtype, hbcode⟩ := hbase _ s htb
    obtain ⟨l, s', hlowerIndex, -, hicode⟩ := hindex _ s₁ hti
    have hstorable := DataType.storable_element (hc.typeOf base htb) (hadmissible.avoids htb)
    refine ⟨⟨_, _⟩, s', ?_, rfl, .element hstorable (isEmptyArray_of_typeOf htb) hbcode hicode⟩
    rw [lowerExpr, ScratchM.bind_of_ok (tupleVariable?_eq_none base htb s)]
    simp only [ScratchM.bind_of_ok hlower, hbtype, ScratchM.bind_of_ok hlowerIndex]
    rfl
  · -- an element of a tuple is read directly from a variable, or through scratch locals
    rcases tupleVariable?_eq base htb s with ⟨l, name, var, rfl, hvar, htuple, hfound⟩ | hnone
    · refine ⟨⟨_, _⟩, s, ?_, rfl, .component hvar htuple hi helement⟩
      rw [lowerExpr, ScratchM.bind_of_ok hfound]
      simp only [ScratchM.bind_of_ok (elementPosition_eq hi s), elementType_eq helement]
      rfl
    · obtain ⟨b, s₁, hlower, hbtype, hbcode⟩ := hbase _ s htb
      refine ⟨⟨_, _⟩, _, ?_, rfl, .spilled hi helement hbcode⟩
      rw [lowerExpr, ScratchM.bind_of_ok hnone]
      simp only [ScratchM.bind_of_ok hlower, hbtype, ScratchM.bind_of_ok (elementPosition_eq hi s₁),
        ScratchM.bind_of_ok (spillTuple_eq helement s₁), elementType_eq helement]
      rfl

/-- An array that does not end in `[]` has items of one type. -/
theorem translates_array {location : Location} {items : List Expr}
    (hadmissible : (Expr.array location items).Admissible c.symbols)
    (hitems : ∀ e ∈ items, Translates c e) : Translates c (.array location items) := by
  intro type s htype
  -- no item is an empty array that does not fit, so lowering finds the element type of checking
  have hagree : (Expr.array location items).TypesAgree c :=
    typesAgree_of_emptyEndFits _ fun r hr hempty => by
      rw [(hadmissible r hr).2.1] at hempty
      cases hempty
  obtain ⟨first, rest, element, rfl, hfirst, hfits, hcheck, rfl⟩ := typeOf_array_iff.mp htype
  -- the first item has the element type, the others were checked against it
  have hplaces : ∀ e ∈ first :: rest,
      requireType e (typeOf c.symbols e) element .arrayElement = .ok () := by
    rw [List.forall_mem_cons]
    exact ⟨requireType_eq_ok_iff.mpr (.inr hfirst), checkItems_eq_ok_iff.mp hcheck⟩
  obtain ⟨code, last, s', hlowerItems, hcode⟩ :=
    lowerItems_adequate hitems hplaces (c.scratchBase + s.length) 1 .i32 (s ++ [.i32])
  have hlower : lowerExpr c (.array location (first :: rest)) s =
      .ok (⟨arrayHeader c (c.scratchBase + s.length) (first :: rest).length ++ code ++
        [.localGet (c.scratchBase + s.length)], .array last⟩, s') := by
    rw [lowerExpr, ScratchM.bind_of_ok (allocScratch_apply c .i32)]
    simp only [ScratchM.bind_of_ok hlowerItems]
    rfl
  have hstorable : element.Storable :=
    DataType.storable_of_fitsCell hfits (hadmissible.avoids htype).element.self
  exact ⟨_, s', hlower, hagree _ _ _ _ htype hlower,
    .array hstorable (isEmptyArray_of_typeOf hfirst) hcode⟩

/-- The lexer admits only numbers that fit. -/
theorem translates_integer {location : Location} {value : Int} (hmin : 0 ≤ value)
    (hmax : value ≤ maxInteger) : Translates c (.integer location value) := by
  intro type s htype
  obtain rfl := Except.ok.inj htype
  refine ⟨⟨_, _⟩, s, ?_, rfl, .integer hmin hmax⟩
  have hrange : -0x80000000 ≤ value ∧ value < 0x80000000 := by
    simp only [maxInteger] at hmax
    omega
  rw [lowerExpr]
  simp only [integerWord, if_pos hrange]
  rfl

/-- The parser has put the literal into the pool. -/
theorem translates_string {location : Location} {text : String}
    (h : (c.symbols.strings.offset? text).isSome) : Translates c (.string location text) := by
  intro type s htype
  obtain rfl := Except.ok.inj htype
  obtain ⟨offset, hoffset⟩ := Option.isSome_iff_exists.mp h
  refine ⟨⟨_, _⟩, s, ?_, rfl, .string hoffset⟩
  rw [lowerExpr, show c.symbols.stringOffset? text = some offset from hoffset]
  rfl

/-- The variable is known, so it has slots. -/
theorem translates_identifier {location : Location} {name : String} :
    Translates c (.identifier location name) := by
  intro type s htype
  obtain ⟨var, hvar, rfl⟩ := typeOf_identifier_iff.mp htype
  refine ⟨⟨_, _⟩, s, ?_, rfl, .variable hvar⟩
  rw [lowerExpr, hvar]
  rfl

/-- The elements are left on the stack, one after the other. -/
theorem translates_tuple {location : Location} {items : List Expr}
    (hitems : ∀ e ∈ items, Translates c e) : Translates c (.tuple location items) := by
  intro type s htype
  obtain ⟨types, htypes, rfl⟩ := typeOf_tuple_iff.mp htype
  obtain ⟨code, s', hlower, hcode⟩ := lowerElements_adequate hitems htypes s
  refine ⟨⟨_, _⟩, s', ?_, rfl, .tuple (isEmptyArray_of_elementTypes htypes) hcode⟩
  rw [lowerExpr, ScratchM.bind_of_ok hlower]
  rfl

mutual

/-- An admissible expression is lowered to code of the type that it is checked to have. -/
theorem translates (hwf : c.symbols.WellFormed) (hc : c.Complete) :
    (e : Expr) → e.Admissible c.symbols → Translates c e
  | .integer .., h => by
    obtain ⟨⟨hmin, hmax⟩, -⟩ := h _ (Expr.self_mem_parts _)
    exact translates_integer hmin hmax
  | .float .., _ => by
    intro type s htype
    obtain rfl := Except.ok.inj htype
    exact ⟨⟨_, _⟩, s, rfl, rfl, .float⟩
  | .string .., h => translates_string (h _ (Expr.self_mem_parts _)).1
  | .identifier .., _ => translates_identifier
  | .unary _ _ operand, h =>
    translates_unary
      (translates hwf hc operand (h.part (by simp [Expr.parts, Expr.self_mem_parts])))
  | .binary _ op left right, h => by
    have hleft : left.Admissible c.symbols := h.part (by simp [Expr.parts, Expr.self_mem_parts])
    have hright : right.Admissible c.symbols := h.part (by simp [Expr.parts, Expr.self_mem_parts])
    by_cases hop : op.isLogical
    · exact translates_logical hop (translates hwf hc left hleft) (translates hwf hc right hright)
    · exact translates_operator (by simpa using hop) hleft (translates hwf hc left hleft)
        (translates hwf hc right hright)
  | .call _ _ args, h =>
    translates_call hc (translates_all hwf hc args fun s hs => h s (List.mem_cons_of_mem _ hs))
  | .member _ base _, h => by
    have hbase : base.Admissible c.symbols := h.part (by simp [Expr.parts, Expr.self_mem_parts])
    exact translates_member hwf hbase (translates hwf hc base hbase)
  | .index _ base index, h => by
    have hbase : base.Admissible c.symbols := h.part (by simp [Expr.parts, Expr.self_mem_parts])
    have hindex : index.Admissible c.symbols := h.part (by simp [Expr.parts, Expr.self_mem_parts])
    exact translates_index hwf hbase (translates hwf hc base hbase)
      (translates hwf hc index hindex)
  | .array _ items, h =>
    translates_array h (translates_all hwf hc items fun s hs => h s (List.mem_cons_of_mem _ hs))
  | .tuple _ items, h =>
    translates_tuple (translates_all hwf hc items fun s hs => h s (List.mem_cons_of_mem _ hs))

theorem translates_all (hwf : c.symbols.WellFormed) (hc : c.Complete) :
    (es : List Expr) →
      (∀ s ∈ Expr.partsAll es, s.LiteralFits c.symbols.strings ∧ s.endsInEmptyArray = false ∧
        ∀ type, typeOf c.symbols s = .ok type → type.AvoidsFloatTuples) →
      ∀ e ∈ es, Translates c e
  | [], _ => by simp
  | e :: es, h => by
    rw [Expr.partsAll, List.forall_mem_append] at h
    rw [List.forall_mem_cons]
    exact ⟨translates hwf hc e h.1, translates_all hwf hc es h.2⟩

end

/-! ### Operations of the lowering

The steps of the monad in which statements are lowered. -/

section Operations

variable {α : Type} {f : FunctionContext} {t t' : SymbolTable} {s s' : List ValueType}

/-- To lower an expression changes the scratch locals only. -/
theorem expr_eq_ok {lower : LoweringContext → ScratchM α} {a : α}
    (h : lower (f.withSymbols t) s = .ok (a, s')) : expr f lower ⟨t, s⟩ = .ok a ⟨t, s'⟩ := by
  simp only [expr, h]

theorem inScope_eq_ok {action : LoweringM α} {a : α}
    (h : action ⟨t.enterScope, s⟩ = .ok a ⟨t', s'⟩) :
    inScope action ⟨t, s⟩ = .ok a ⟨t'.exitScope, s'⟩ := by
  simp only [inScope, withTable, h]

/-- The types that checking has filled in are those of the variables. -/
theorem defineBindings_eq_ok {bindings : List Binding} {vars : List Variable}
    (h : Declares t bindings vars t') (location : Location) (s : List ValueType) :
    defineBindings location bindings ⟨t, s⟩ = .ok vars ⟨t', s⟩ := by
  induction h with
  | nil => rfl
  | @cons t t' b bs vars type htype hopen hnew _ ih =>
    have hdefine : define b.name type .declaration b.location ⟨t, s⟩ =
        .ok (declaredVariable t b.name type)
          ⟨t.withVariable (declaredVariable t b.name type), s⟩ := by
      rw [define, SymbolTable.defineVariable_eq_ok_iff.mpr ⟨hopen, hnew, rfl, rfl⟩]
      rfl
    simp only [defineBindings, htype, EStateM.bind_of_ok hdefine, EStateM.bind_of_ok ih]
    rfl

/-- The bindings that checking fills in declare variables of the types it found. -/
theorem declares_of_check {bindings bindings' : List Binding} {types : List DataType}
    (hlength : bindings.length = types.length)
    (h : WasmCompiler.defineBindings (bindings.zip types) t = .ok bindings' t') :
    ∃ vars, Declares t bindings' vars t' ∧ vars.map (·.type) = types := by
  induction bindings generalizing types t bindings' with
  | nil =>
    obtain rfl : types = [] := List.eq_nil_of_length_eq_zero hlength.symm
    obtain ⟨rfl, rfl⟩ := EStateM.pure_eq_ok_iff.mp h
    exact ⟨[], .nil, rfl⟩
  | cons b bindings ih =>
    match types with
    | [] => cases hlength
    | type :: types =>
      rw [List.zip_cons_cons] at h
      obtain ⟨var, u, hdefine, others, hothers, rfl⟩ := defineBindings_cons_iff.mp h
      obtain ⟨hopen, hnew, rfl, rfl⟩ := SymbolTable.defineVariable_eq_ok_iff.mp hdefine
      obtain ⟨vars, hvars, rfl⟩ := ih (Nat.succ.inj hlength) hothers
      exact ⟨_, .cons rfl hopen hnew hvars, rfl⟩

end Operations

/-! ### Statements -/

section Statements

variable {f : FunctionContext} {g t t' : SymbolTable} {result : DataType}

/-- The numbers of functions do not depend on the variables. -/
theorem complete_of_continues (hf : (f.withSymbols g).Complete) (ht : g.Continues t) :
    (f.withSymbols t).Complete := by
  intro callee signature hcallee
  have hcallee' : t.callable? callee = some signature := hcallee
  rw [ht.globals.callable?] at hcallee'
  exact hf callee signature hcallee'

/-- An expression of a statement is lowered to code of its type. -/
theorem expr_typed (hf : (f.withSymbols g).Complete) (ht : g.Continues t) {e : Expr}
    (he : e.Admissible t) {type : DataType} (htype : typeOf t e = .ok type) (s : List ValueType) :
    ∃ l s', expr f (lowerExpr · e) ⟨t, s⟩ = .ok l ⟨t, s'⟩ ∧ l.type = type ∧
      ExprCode (f.withSymbols t) s e type l.code s' := by
  have htranslates : Translates (f.withSymbols t) e :=
    translates ht.wellFormed (complete_of_continues hf ht) e he
  obtain ⟨l, s', hlower, hl, hcode⟩ := htranslates type s htype
  exact ⟨l, s', expr_eq_ok hlower, hl, hcode⟩

/-- An expression in its place is lowered to code of the type of the place. -/
theorem expr_expected (hf : (f.withSymbols g).Complete) (ht : g.Continues t) {e : Expr}
    (he : e.Admissible t) {expected : DataType} {context : Mismatch.Context}
    (hplace : expectType t e expected context = .ok ()) (s : List ValueType) :
    ∃ l s', expr f (lowerExpr · e) ⟨t, s⟩ = .ok l ⟨t, s'⟩ ∧
      ExprCode (f.withSymbols t) s e expected l.code s' := by
  have htranslates : Translates (f.withSymbols t) e :=
    translates ht.wellFormed (complete_of_continues hf ht) e he
  obtain ⟨l, s', hlower, -, hcode⟩ := htranslates.place hplace s
  exact ⟨l, s', expr_eq_ok hlower, hcode⟩

/-- The value of a declaration is lowered to code of a type with the machine values of every
variable. -/
theorem initial_adequate (hf : (f.withSymbols g).Complete) (ht : g.Continues t)
    {bindings : List Binding} {types : List DataType} {e : Expr} {initial : Option DataType}
    (he : e.Admissible t) (hinitial : initialType t (some e) = .ok initial)
    (htypes : List.Forall₂ (fun b type => bindingType t initial true b = .ok type) bindings types)
    (s : List ValueType) :
    ∃ type l s', expr f (lowerExpr · e) ⟨t, s⟩ = .ok l ⟨t, s'⟩ ∧
      ExprCode (f.withSymbols t) s e type l.code s' ∧
      ∀ found ∈ types, found.machineTypes = type.machineTypes := by
  obtain ⟨htyped, hempty⟩ := initialType_eq_ok hinitial
  cases initial with
  | some type =>
    obtain ⟨_, he', htype⟩ := htyped type rfl
    obtain rfl := Option.some.inj he'
    obtain ⟨l, s', hlower, -, hcode⟩ := expr_typed hf ht he htype s
    refine ⟨type, l, s', hlower, hcode, forall_mem_of_forall₂ htypes fun b found hfound => ?_⟩
    rw [(bindingType_eq_ok hfound).1 type rfl]
  | none =>
    -- an array without items is as wide as any array
    have hplace : expectType t e (.array .i32) .returned = .ok () :=
      requireType_eq_ok_iff.mpr (.inl ⟨hempty rfl e rfl, rfl⟩)
    obtain ⟨l, s', hlower, hcode⟩ := expr_expected hf ht he hplace s
    refine ⟨_, l, s', hlower, hcode, forall_mem_of_forall₂ htypes fun b found hfound => ?_⟩
    have harray := ((bindingType_eq_ok hfound).2 rfl).2 rfl
    match found, harray with
    | .array element, _ => rfl

/-- The value comes first, in the table without the new names. -/
theorem declare_adequate (hf : (f.withSymbols g).Complete) (ht : g.Continues t)
    {bindings bindings' : List Binding} {value : Option Expr} (hbindings : bindings ≠ [])
    (hvalue : ∀ e ∈ value, e.Admissible t)
    (h : checkDeclaration bindings value t = .ok bindings' t') (location : Location)
    (isMutable : Bool) (s : List ValueType) :
    ∃ code s', lowerDeclaration f location bindings' value ⟨t, s⟩ = .ok code ⟨t', s'⟩ ∧
      StmtCode f result t s (.declare location isMutable bindings' value) code t' s' := by
  obtain ⟨initial, types, hinitial, htypes, hdefine⟩ := checkDeclaration_eq_ok h
  obtain ⟨vars, hvars, htypesVars⟩ := declares_of_check htypes.length_eq hdefine
  cases value with
  | none =>
    refine ⟨_, s, ?_, .declare hvars⟩
    rw [lowerDeclaration, EStateM.bind_of_ok (defineBindings_eq_ok hvars location s)]
    rfl
  | some e =>
    obtain ⟨type, l, s', hlower, hcode, hmachine⟩ :=
      initial_adequate hf ht (hvalue e rfl) hinitial htypes s
    -- a declaration has at least one binding, so there are variables for the value
    match vars, htypesVars with
    | [], htypesVars =>
      subst htypesVars
      exact absurd (List.eq_nil_of_length_eq_zero htypes.length_eq) hbindings
    | first :: others, htypesVars =>
      refine ⟨_, s', ?_, .initial hcode hvars fun var hvar => ?_⟩
      · rw [lowerDeclaration, EStateM.bind_of_ok hlower,
          EStateM.bind_of_ok (defineBindings_eq_ok hvars location s')]
        rfl
      · exact hmachine var.type (htypesVars ▸ List.mem_map_of_mem hvar)

/-- One case for each form that can be assigned to. -/
theorem assign_adequate (hf : (f.withSymbols g).Complete) (ht : g.Continues t)
    {target value : Expr} (htarget : target.Admissible t) (hvalue : value.Admissible t)
    (h : checkAssignment t target value = .ok ()) (location : Location) (s : List ValueType) :
    ∃ code s', lowerAssignment f value target ⟨t, s⟩ = .ok code ⟨t, s'⟩ ∧
      StmtCode f result t s (.assign location target value) code t s' := by
  unfold checkAssignment at h
  split at h
  · rename_i l name
    split at h
    · rename_i var hvar
      obtain ⟨l', s', hlower, hcode⟩ := expr_expected hf ht hvalue h s
      refine ⟨_, s', ?_, .assign hvar hcode⟩
      rw [lowerAssignment, EStateM.bind_of_ok (EStateM.get_eq_ok_iff.mpr ⟨rfl, rfl⟩)]
      simp only [hvar, EStateM.bind_of_ok hlower]
      rfl
    · cases h
  · rename_i l base name
    obtain ⟨type, htype, h⟩ := Except.bind_eq_ok_iff.mp h
    obtain ⟨struct, fields, i, htb, hfield⟩ := typeOf_member_iff.mp htype
    have hbase : base.Admissible t :=
      htarget.part (by simp [Expr.parts, Expr.self_mem_parts])
    obtain ⟨b, s₁, hlowerBase, hbtype, hbcode⟩ := expr_typed hf ht hbase htb s
    obtain ⟨v, s', hlower, hcode⟩ := expr_expected hf ht hvalue h s₁
    have hstorable :=
      DataType.storable_field (ht.wellFormed.typeOf base htb) (hbase.avoids htb) hfield
    -- lowering looks up the field in the type that checking found
    have hfieldOf : expr f (fun _ => fieldOf b.type name base.location) ⟨t, s₁⟩ =
        .ok (i, type) ⟨t, s₁⟩ := by
      refine expr_eq_ok ?_
      simp only [hbtype, fieldOf, DataType.field?, hfield]
      rfl
    refine ⟨_, s', ?_, .setField hfield hstorable hbcode hcode⟩
    rw [lowerAssignment, EStateM.bind_of_ok hlowerBase, EStateM.bind_of_ok hfieldOf]
    simp only [EStateM.bind_of_ok hlower]
    rfl
  · cases h

/-- With a value or without, as the function asks for. -/
theorem return_adequate (hf : (f.withSymbols g).Complete) (ht : g.Continues t)
    {value : Option Expr} {location : Location} (hvalue : ∀ e ∈ value, e.Admissible t)
    (h : checkReturn t result location value = .ok ()) (s : List ValueType) :
    ∃ code s', lowerStmt f (.ret location value) ⟨t, s⟩ = .ok code ⟨t, s'⟩ ∧
      StmtCode f result t s (.ret location value) code t s' := by
  cases value with
  | none =>
    rw [checkReturn] at h
    split at h
    · rename_i hnone
      exact ⟨_, s, rfl, .leave hnone⟩
    · cases h
  | some e =>
    rw [checkReturn] at h
    split at h
    · obtain ⟨_, -, h⟩ := Except.bind_eq_ok_iff.mp h
      cases h
    · obtain ⟨l, s', hlower, hcode⟩ := expr_expected hf ht (hvalue e rfl) h s
      refine ⟨_, s', ?_, .giveBack hcode⟩
      rw [lowerStmt, EStateM.bind_of_ok hlower]
      rfl

theorem checkCondition_eq_ok {condition : Expr} (h : checkCondition t condition = .ok ()) :
    typeOf t condition = .ok .i32 := by
  obtain ⟨type, htype, h⟩ := Except.bind_eq_ok_iff.mp h
  split at h
  · rename_i hi32
    rwa [hi32] at htype
  · cases h

theorem checkPrint_eq_ok {value : Expr} (h : checkPrint t value = .ok ()) :
    ∃ type, typeOf t value = .ok type ∧ (type = .i32 ∨ type = .string) := by
  obtain ⟨type, htype, h⟩ := Except.bind_eq_ok_iff.mp h
  split at h
  · rename_i hprintable
    exact ⟨type, htype, hprintable⟩
  · cases h

/-- The type of the value tells which import is called. -/
theorem print_adequate (hf : (f.withSymbols g).Complete) (ht : g.Continues t) {value : Expr}
    (hvalue : value.Admissible t) (h : checkPrint t value = .ok ()) (location : Location)
    (s : List ValueType) :
    ∃ code s', lowerStmt f (.print location value) ⟨t, s⟩ = .ok code ⟨t, s'⟩ ∧
      StmtCode f result t s (.print location value) code t s' := by
  obtain ⟨type, htype, hprintable⟩ := checkPrint_eq_ok h
  obtain ⟨l, s', hlower, rfl, hcode⟩ := expr_typed hf ht hvalue htype s
  refine ⟨_, s', ?_, .print hprintable hcode⟩
  rw [lowerStmt, EStateM.bind_of_ok hlower]
  rfl

/-- The values that the expression leaves are dropped. -/
theorem expression_adequate (hf : (f.withSymbols g).Complete) (ht : g.Continues t) {value : Expr}
    (hvalue : value.Admissible t) {type : DataType} (h : typeOf t value = .ok type)
    (location : Location) (s : List ValueType) :
    ∃ code s', lowerStmt f (.expression location value) ⟨t, s⟩ = .ok code ⟨t, s'⟩ ∧
      StmtCode f result t s (.expression location value) code t s' := by
  obtain ⟨l, s', hlower, rfl, hcode⟩ := expr_typed hf ht hvalue h s
  refine ⟨_, s', ?_, .evaluate hcode⟩
  rw [lowerStmt, EStateM.bind_of_ok hlower]
  rfl

/-- Checking does not turn a statement that can follow an `else` into one that cannot. -/
theorem isAlternate_checkStmt {stmt stmt' : Stmt} (h : checkStmt result stmt t = .ok stmt' t')
    (hstmt : stmt.isAlternate) : stmt'.isAlternate := by
  match stmt, hstmt with
  | .block .., _ =>
    obtain ⟨_, _, -, rfl, -⟩ := checkStmt_block_iff.mp h
    rfl
  | .conditional _ _ _ none, _ =>
    obtain ⟨-, _, _, -, rfl, -⟩ := checkStmt_conditional_none_iff.mp h
    rfl
  | .conditional _ _ _ (some _), _ =>
    obtain ⟨-, _, _, -, _, -, rfl⟩ := checkStmt_conditional_some_iff.mp h
    rfl

mutual

/-- A checked statement is lowered to code that belongs to it, and lowering leaves the table that
checking left. -/
theorem stmt_adequate (hf : (f.withSymbols g).Complete) :
    (stmt : Stmt) → stmt.IsRegular → {stmt' : Stmt} → {t t' : SymbolTable} →
      (∀ p ∈ stmt.scopedExprs result t, p.2.Admissible p.1) → g.Continues t →
      checkStmt result stmt t = .ok stmt' t' → (s : List ValueType) →
      ∃ code s', lowerStmt f stmt' ⟨t, s⟩ = .ok code ⟨t', s'⟩ ∧
        StmtCode f result t s stmt' code t' s'
  | .declare location isMutable bindings value, hregular, _, _, _, hscoped, ht, h, s => by
    obtain ⟨bindings', hcheck, rfl⟩ := checkStmt_declare_iff.mp h
    have hvalue : ∀ e ∈ value, e.Admissible _ := fun e he =>
      hscoped _ (List.mem_map_of_mem (Option.mem_toList.mpr he))
    exact declare_adequate hf ht hregular hvalue hcheck location isMutable s
  | .function .., _, _, _, _, _, _, h, _ | .struct .., _, _, _, _, _, _, h, _ => by
    rw [checkStmt] at h
    cases h
  | .ret location value, _, _, _, _, hscoped, ht, h, s => by
    obtain ⟨hcheck, rfl, rfl⟩ := checkStmt_ret_iff.mp h
    have hvalue : ∀ e ∈ value, e.Admissible _ := fun e he =>
      hscoped _ (List.mem_map_of_mem (Option.mem_toList.mpr he))
    exact return_adequate hf ht hvalue hcheck s
  | .assign location target value, _, _, _, _, hscoped, ht, h, s => by
    obtain ⟨hcheck, rfl, rfl⟩ := checkStmt_assign_iff.mp h
    rw [Stmt.scopedExprs, List.forall_mem_cons, List.forall_mem_singleton] at hscoped
    exact assign_adequate hf ht hscoped.1 hscoped.2 hcheck location s
  | .conditional location condition body none, hregular, _, _, _, hscoped, ht, h, s => by
    obtain ⟨hcheck, body', u, hbody, rfl, rfl⟩ := checkStmt_conditional_none_iff.mp h
    rw [Stmt.scopedExprs, List.forall_mem_cons] at hscoped
    obtain ⟨l, s₁, hlower, -, hcondition⟩ :=
      expr_typed hf ht hscoped.1 (checkCondition_eq_ok hcheck) s
    obtain ⟨code, s', hlowerBody, hcode⟩ :=
      stmts_adequate hf body hregular hscoped.2 ht.enterScope hbody s₁
    refine ⟨_, s', ?_, .when hcondition hcode⟩
    rw [lowerStmt, EStateM.bind_of_ok hlower, EStateM.bind_of_ok (inScope_eq_ok hlowerBody)]
    rfl
  | .conditional location condition body (some alternate), hregular, _, _, _, hscoped, ht, h,
      s => by
    obtain ⟨hbodyRegular, hshape, halternateRegular⟩ := hregular
    obtain ⟨hcheck, body', u, hbody, alternate', halternate, rfl⟩ :=
      checkStmt_conditional_some_iff.mp h
    rw [Stmt.scopedExprs, List.cons_append, List.forall_mem_cons, List.forall_mem_append,
      tableAfter_inScope hbody] at hscoped
    obtain ⟨l, s₁, hlower, -, hcondition⟩ :=
      expr_typed hf ht hscoped.1 (checkCondition_eq_ok hcheck) s
    obtain ⟨code, s₂, hlowerBody, hcode⟩ :=
      stmts_adequate hf body hbodyRegular hscoped.2.1 ht.enterScope hbody s₁
    -- the alternate is checked, and lowered, in the table that the scope of the body left
    have hu := continues_checkStmts body hbody ht.enterScope
    obtain ⟨other, s', hlowerOther, hother⟩ :=
      stmt_adequate hf alternate halternateRegular hscoped.2.2 hu.exitScope halternate s₂
    refine ⟨_, s', ?_,
      .choose (isAlternate_checkStmt halternate hshape) hcondition hcode hother⟩
    rw [lowerStmt, EStateM.bind_of_ok hlower, EStateM.bind_of_ok (inScope_eq_ok hlowerBody),
      EStateM.bind_of_ok hlowerOther]
    rfl
  | .whileLoop location condition body, hregular, _, _, _, hscoped, ht, h, s => by
    obtain ⟨hcheck, body', u, hbody, rfl, rfl⟩ := checkStmt_whileLoop_iff.mp h
    rw [Stmt.scopedExprs, List.forall_mem_cons] at hscoped
    obtain ⟨l, s₁, hlower, -, hcondition⟩ :=
      expr_typed hf ht hscoped.1 (checkCondition_eq_ok hcheck) s
    obtain ⟨code, s', hlowerBody, hcode⟩ :=
      stmts_adequate hf body hregular hscoped.2 ht.enterScope hbody s₁
    refine ⟨_, s', ?_, .loop hcondition hcode⟩
    rw [lowerStmt, EStateM.bind_of_ok hlower, EStateM.bind_of_ok (inScope_eq_ok hlowerBody)]
    rfl
  | .print location value, _, _, _, _, hscoped, ht, h, s => by
    obtain ⟨hcheck, rfl, rfl⟩ := checkStmt_print_iff.mp h
    exact print_adequate hf ht (hscoped _ List.mem_cons_self) hcheck location s
  | .expression location value, _, _, _, _, hscoped, ht, h, s => by
    obtain ⟨⟨type, htype⟩, rfl, rfl⟩ := checkStmt_expression_iff.mp h
    exact expression_adequate hf ht (hscoped _ List.mem_cons_self) htype location s
  | .block location body, hregular, _, _, _, hscoped, ht, h, s => by
    obtain ⟨body', u, hbody, rfl, rfl⟩ := checkStmt_block_iff.mp h
    obtain ⟨code, s', hlowerBody, hcode⟩ :=
      stmts_adequate hf body hregular hscoped ht.enterScope hbody s
    refine ⟨code, s', ?_, .block hcode⟩
    rw [lowerStmt]
    exact inScope_eq_ok hlowerBody

theorem stmts_adequate (hf : (f.withSymbols g).Complete) :
    (stmts : List Stmt) → Stmt.AllRegular stmts → {stmts' : List Stmt} → {t t' : SymbolTable} →
      (∀ p ∈ Stmt.scopedExprsAll result stmts t, p.2.Admissible p.1) → g.Continues t →
      checkStmts result stmts t = .ok stmts' t' → (s : List ValueType) →
      ∃ code s', lowerStmts f stmts' ⟨t, s⟩ = .ok code ⟨t', s'⟩ ∧
        StmtsCode f result t s stmts' code t' s'
  | [], _, _, _, _, _, _, h, s => by
    obtain ⟨rfl, rfl⟩ := EStateM.pure_eq_ok_iff.mp h
    exact ⟨[], s, rfl, .nil⟩
  | stmt :: stmts, hregular, _, _, _, hscoped, ht, h, s => by
    obtain ⟨stmt', u, hstmt, stmts', hstmts, rfl⟩ := checkStmts_cons_iff.mp h
    -- the later statements are checked in the table after this one
    rw [Stmt.scopedExprsAll, List.forall_mem_append, hstmt, tableAfter] at hscoped
    obtain ⟨code, s₁, hlower, hcode⟩ :=
      stmt_adequate hf stmt hregular.1 hscoped.1 ht hstmt s
    obtain ⟨rest, s', hlowerRest, hrest⟩ :=
      stmts_adequate hf stmts hregular.2 hscoped.2 (continues_checkStmt stmt hstmt ht) hstmts s₁
    refine ⟨code ++ rest, s', ?_, .cons hcode hrest⟩
    rw [lowerStmts, EStateM.bind_of_ok hlower, EStateM.bind_of_ok hlowerRest]
    rfl

end

end Statements

end Lowering

end WasmCompiler
