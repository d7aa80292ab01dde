import WasmCompiler.Proofs.Effects

/-!
# Typing rules

What `typeOf` accepts, one rule for each form of expression, read off once so that later proofs
never unfold it. An array literal without items has no type of its own; where a type is asked for,
`requireType_eq_ok_iff` says that it fits every array type.

Each rule is an equivalence, so that it can be read both ways: the lowering of accepted expressions
takes a typing apart, and the moving of a typing from one table to another puts it together again.
-/

namespace WasmCompiler

variable {t : SymbolTable} {location : Location} {type : DataType}

-- The rules below are the only proofs that open these definitions.
attribute [local simp] typeOf elementTypes checkItems checkArgs

/-! ### Places

Where a value goes, its type is known beforehand, and only there `[]` has a meaning. -/

/-- An expression fits a type if it has it, or if it is an array literal without items and the type
is one of arrays. -/
theorem requireType_eq_ok_iff {e : Expr} {found : Except SemanticError DataType}
    {expected : DataType} {context : Mismatch.Context} :
    requireType e found expected context = .ok () ↔
      (e.isEmptyArray ∧ expected.isArray) ∨ found = .ok expected := by
  unfold requireType
  -- an empty array is accepted for any array, without a type of its own
  by_cases hempty : e.isEmptyArray && expected.isArray
  · rw [if_pos hempty]
    simp only [Bool.and_eq_true] at hempty
    exact ⟨fun _ => .inl hempty, fun _ => rfl⟩
  · rw [if_neg hempty, Except.bind_eq_ok_iff]
    simp only [Bool.and_eq_true] at hempty
    constructor
    · rintro ⟨type, rfl, h⟩
      by_cases htype : type = expected
      · exact .inr (by rw [htype])
      · rw [if_neg htype] at h
        cases h
    · rintro (h | rfl)
      · exact absurd h hempty
      · exact ⟨expected, rfl, if_pos rfl⟩

/-! ### Operators

The three kinds of operators accept different operands; an operator is of one kind only. -/

/-- Arithmetic takes two numbers, and one float among them makes the result a float. -/
theorem arithmeticResult_eq_some_iff {left right : DataType} :
    left.arithmeticResult right = some type ↔
      (left.isNumeric ∧ right.isNumeric) ∧
        type = if left.isFloat || right.isFloat then .f64 else .i32 := by
  unfold DataType.arithmeticResult
  by_cases hnumeric : left.isNumeric && right.isNumeric
  · rw [if_pos hnumeric, Option.some.injEq, eq_comm]
    rw [Bool.and_eq_true] at hnumeric
    exact ⟨fun h => ⟨hnumeric, h⟩, fun h => h.2⟩
  · rw [if_neg hnumeric]
    rw [Bool.and_eq_true] at hnumeric
    simp [hnumeric]

/-- What operators accept and give, by their kinds. -/
theorem BinaryOp.result?_cases {op : BinaryOp} {left right : DataType}
    (h : op.result? left right = some type) :
    (op.isArithmetic ∧ (left.isNumeric ∧ right.isNumeric) ∧
        type = if left.isFloat || right.isFloat then .f64 else .i32) ∨
      (op.isComparison ∧ ((left.isNumeric ∧ right.isNumeric) ∨ (left = right ∧ left.fitsCell)) ∧
        type = .i32) ∨
      (op.isLogical ∧ left = .i32 ∧ right = .i32 ∧ type = .i32) := by
  unfold BinaryOp.result? at h
  split at h
  · rename_i hop
    exact .inl ⟨hop, arithmeticResult_eq_some_iff.mp h⟩
  · split at h
    · rename_i hop
      split at h
      · rename_i hoperands
        simp only [Bool.or_eq_true, Bool.and_eq_true, decide_eq_true_eq,
          Option.isSome_iff_exists, arithmeticResult_eq_some_iff] at hoperands
        refine .inr (.inl ⟨hop, hoperands.imp_left ?_, (Option.some.inj h).symm⟩)
        rintro ⟨_, hnumeric, -⟩
        exact hnumeric
      · cases h
    · rename_i harithmetic hcomparison
      split at h
      · rename_i hoperands
        simp only [Bool.and_eq_true, decide_eq_true_eq] at hoperands
        refine .inr (.inr ⟨?_, hoperands.1, hoperands.2, (Option.some.inj h).symm⟩)
        -- an operator of neither kind before is a logical one
        cases op <;> first | rfl | exact absurd rfl harithmetic | exact absurd rfl hcomparison
      · cases h

/-! ### Expressions

One rule for each form. The parts of an expression are typed in the table of the whole. -/

/-- A name has the type of the variable that it stands for. -/
theorem typeOf_identifier_iff {name : String} :
    typeOf t (.identifier location name) = .ok type ↔
      ∃ var, t.lookupVariable? name = some var ∧ var.type = type := by
  rw [typeOf]
  cases t.lookupVariable? name <;> simp

/-- Only numbers are negated, and negation keeps their type. -/
theorem typeOf_unary_iff {op : UnaryOp} {operand : Expr} :
    typeOf t (.unary location op operand) = .ok type ↔
      op = .negate ∧ typeOf t operand = .ok type ∧ type.isNumeric := by
  rw [typeOf, Except.bind_eq_ok_iff]
  cases op with
  | negate =>
    constructor
    · rintro ⟨found, hfound, h⟩
      simp only [unaryType] at h
      split at h
      · rename_i hnumeric
        obtain rfl := Except.ok.inj h
        exact ⟨rfl, hfound, hnumeric⟩
      · cases h
    · rintro ⟨-, hfound, hnumeric⟩
      exact ⟨type, hfound, if_pos hnumeric⟩
  | not => simp [unaryType]

theorem typeOf_binary_iff {op : BinaryOp} {left right : Expr} :
    typeOf t (.binary location op left right) = .ok type ↔
      ∃ l r, typeOf t left = .ok l ∧ typeOf t right = .ok r ∧ op.result? l r = some type := by
  rw [typeOf, Except.bind_eq_ok_iff]
  constructor
  · rintro ⟨l, hl, h⟩
    obtain ⟨r, hr, h⟩ := Except.bind_eq_ok_iff.mp h
    split at h
    · rename_i found hresult
      obtain rfl := Except.ok.inj h
      exact ⟨l, r, hl, hr, hresult⟩
    · cases h
  · rintro ⟨l, r, hl, hr, hresult⟩
    refine ⟨l, hl, Except.bind_eq_ok_iff.mpr ⟨r, hr, ?_⟩⟩
    rw [hresult]

/-- A call passes as many arguments as there are parameters, each of which fits its parameter. -/
theorem typeOf_call_iff {callee : String} {args : List Expr} :
    typeOf t (.call location callee args) = .ok type ↔
      ∃ signature, t.callable? callee = some signature ∧
        args.length = signature.params.length ∧
        checkArgs t callee 1 args signature.params = .ok () ∧ signature.result = type := by
  rw [typeOf]
  cases t.callable? callee with
  | none => simp
  | some signature =>
    simp only [Option.some.injEq, exists_eq_left']
    by_cases hlength : args.length = signature.params.length
    · rw [if_pos hlength, Except.seq_eq_ok_iff]
      simp [hlength]
    · rw [if_neg hlength]
      simp [hlength]

/-- A field is looked up in the type of the base, which carries the fields of its struct. -/
theorem typeOf_member_iff {base : Expr} {name : String} :
    typeOf t (.member location base name) = .ok type ↔
      ∃ struct fields i, typeOf t base = .ok (.struct struct fields) ∧
        DataType.lookupField name fields = some (i, type) := by
  rw [typeOf, Except.bind_eq_ok_iff]
  constructor
  · rintro ⟨found, hfound, h⟩
    unfold memberType at h
    split at h
    · rename_i struct fields
      split at h
      · rename_i i fieldType hfield
        obtain rfl := Except.ok.inj h
        exact ⟨struct, fields, i, hfound, hfield⟩
      · cases h
    · cases h
  · rintro ⟨struct, fields, i, hfound, hfield⟩
    refine ⟨_, hfound, ?_⟩
    simp only [memberType, DataType.field?, hfield]

/-- An index goes into an array at a position that is computed, or into a tuple at one that is
written. -/
theorem typeOf_index_iff {base index : Expr} :
    typeOf t (.index location base index) = .ok type ↔
      (typeOf t base = .ok (.array type) ∧ typeOf t index = .ok .i32) ∨
        ∃ elements i, typeOf t base = .ok (.tuple elements) ∧
          index.elementIndex? elements.length = some i ∧ elements[i]? = some type := by
  rw [typeOf, Except.bind_eq_ok_iff]
  constructor
  · rintro ⟨found, hfound, h⟩
    split at h
    · rename_i element
      obtain ⟨place, hplace, h⟩ := Except.bind_eq_ok_iff.mp h
      split at h
      · rename_i hi32
        obtain rfl := Except.ok.inj h
        exact .inl ⟨hfound, hi32 ▸ hplace⟩
      · cases h
    · rename_i elements
      split at h
      · rename_i found' helement
        obtain rfl := Except.ok.inj h
        obtain ⟨i, hi, helement⟩ := Option.bind_eq_some_iff.mp helement
        exact .inr ⟨elements, i, hfound, hi, helement⟩
      · cases h
    · cases h
  · rintro (⟨hbase, hindex⟩ | ⟨elements, i, hbase, hi, helement⟩)
    · exact ⟨_, hbase, Except.bind_eq_ok_iff.mpr ⟨_, hindex, if_pos rfl⟩⟩
    · refine ⟨_, hbase, ?_⟩
      simp only [hi, Option.bind_some, helement]

/-- The first item gives an array its type and the others have to fit it. -/
theorem typeOf_array_iff {items : List Expr} :
    typeOf t (.array location items) = .ok type ↔
      ∃ first rest element, items = first :: rest ∧ typeOf t first = .ok element ∧
        element.fitsCell ∧ checkItems t element rest = .ok () ∧ type = .array element := by
  cases items with
  | nil => simp
  | cons first rest =>
    rw [typeOf, Except.bind_eq_ok_iff]
    constructor
    · rintro ⟨element, helement, h⟩
      split at h
      · rename_i hfits
        obtain ⟨hitems, h⟩ := Except.seq_eq_ok_iff.mp h
        exact ⟨first, rest, element, rfl, helement, hfits, hitems, (Except.ok.inj h).symm⟩
      · cases h
    · rintro ⟨_, _, element, hcons, helement, hfits, hitems, rfl⟩
      obtain ⟨rfl, rfl⟩ := List.cons.inj hcons
      refine ⟨element, helement, ?_⟩
      rw [if_pos hfits, Except.seq_eq_ok_iff]
      exact ⟨hitems, rfl⟩

/-- An array literal without items has no type of its own. -/
theorem isEmptyArray_of_typeOf {e : Expr} (h : typeOf t e = .ok type) : e.isEmptyArray = false := by
  cases e with
  | array location items =>
    obtain ⟨first, rest, -, rfl, -⟩ := typeOf_array_iff.mp h
    rfl
  | _ => rfl

/-- Every element of a tuple has a type of its own. -/
theorem typeOf_tuple_iff {items : List Expr} :
    typeOf t (.tuple location items) = .ok type ↔
      ∃ types, elementTypes t items = .ok types ∧ type = .tuple types := by
  rw [typeOf, Except.bind_eq_ok_iff]
  simp [eq_comm]

/-! ### Lists of expressions

Items of arrays, arguments and elements of tuples are checked one after another. -/

/-- The items after the first are checked one by one against its type. -/
theorem checkItems_cons_iff {element : DataType} {item : Expr} {items : List Expr} :
    checkItems t element (item :: items) = .ok () ↔
      requireType item (typeOf t item) element .arrayElement = .ok () ∧
        checkItems t element items = .ok () := by
  rw [checkItems, Except.seq_eq_ok_iff]

/-- Every item of a checked array fits the element type. -/
theorem checkItems_eq_ok_iff {element : DataType} {items : List Expr} :
    checkItems t element items = .ok () ↔
      ∀ item ∈ items, requireType item (typeOf t item) element .arrayElement = .ok () := by
  induction items with
  | nil => simp
  | cons item items ih => rw [checkItems_cons_iff, ih, List.forall_mem_cons]

/-- The arguments are checked one by one; their position is for the error. -/
theorem checkArgs_cons_iff {callee : String} {position : Nat} {arg : Expr} {args : List Expr}
    {param : DataType} {params : List DataType} :
    checkArgs t callee position (arg :: args) (param :: params) = .ok () ↔
      requireType arg (typeOf t arg) param (.argument position callee) = .ok () ∧
        checkArgs t callee (position + 1) args params = .ok () := by
  rw [checkArgs, Except.seq_eq_ok_iff]

/-- No element of a tuple is without a value. -/
theorem elementTypes_cons_iff {item : Expr} {items : List Expr} {types : List DataType} :
    elementTypes t (item :: items) = .ok types ↔
      ∃ type others, typeOf t item = .ok type ∧ type.isNone = false ∧
        elementTypes t items = .ok others ∧ types = type :: others := by
  rw [elementTypes, Except.bind_eq_ok_iff]
  constructor
  · rintro ⟨type, htype, h⟩
    split at h
    · cases h
    · rename_i hnone
      obtain ⟨others, hothers, h⟩ := Except.bind_eq_ok_iff.mp h
      exact ⟨type, others, htype, by simpa using hnone, hothers, (Except.ok.inj h).symm⟩
  · rintro ⟨type, others, htype, hnone, hothers, rfl⟩
    refine ⟨type, htype, ?_⟩
    rw [if_neg (by simp [hnone]), Except.bind_eq_ok_iff]
    exact ⟨others, hothers, rfl⟩

/-- An empty array literal is no element of a tuple, since it has no type. -/
theorem isEmptyArray_of_elementTypes {items : List Expr} {types : List DataType}
    (h : elementTypes t items = .ok types) : ∀ item ∈ items, item.isEmptyArray = false := by
  induction items generalizing types with
  | nil => simp
  | cons item items ih =>
    obtain ⟨type, others, htype, -, hothers, -⟩ := elementTypes_cons_iff.mp h
    exact List.forall_mem_cons.mpr ⟨isEmptyArray_of_typeOf htype, ih hothers⟩

end WasmCompiler
