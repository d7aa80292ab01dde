import WasmCompiler.Proofs.Tree.Nesting
import WasmCompiler.Proofs.Tree.Reading

/-!
# Reading expressions back

The tokens of an expression are read in a context that asks for a rank and goes on with whatever
follows: the parser folds operators into what it has read so far, so after the left operand of an
operator it is still in the middle of the same expression. `IsReadAt` says this for all contexts
at once. It is given what the rest of the climb does with the expression and says what the whole
does, and it has one lemma for each form of expression: `isReadAt_of_operand` covers what an
operand can be, `isReadAt_of_extension` what can follow one.

Each token takes at most one level of nesting, so an expression with no more tokens than there
are levels is not too deep.

The main results:

* `Reads.climb` and `reads_climb_stop` are the two ways for the climb to go on;
* `isRead_of_isWritable` is the induction over the tree: every expression that can be written is
  read from its own tokens;
* `IsRead.reads` is what a statement uses of it, where an expression stands on its own.
-/

namespace WasmCompiler

open TokenKind (grouped commas otherElements elements)

attribute [local simp] Expr.kinds

/-! ### First tokens

The parser looks at one token to tell whether an item or an argument follows. -/

/-- Whether an expression can begin with a token. -/
def TokenKind.beginsExpression : TokenKind → Bool
  | .integer _ | .float _ | .string _ | .identifier _ | .minus | .bang | .lparen | .lbracket => true
  | _ => false

/-- Whether some tokens begin like an expression. -/
def BeginsExpression (kinds : List TokenKind) : Prop :=
  ∃ first others, kinds = first :: others ∧ first.beginsExpression

theorem BeginsExpression.grouped {kinds : List TokenKind} (h : BeginsExpression kinds)
    (needed : Bool) : BeginsExpression (grouped needed kinds) := by
  cases needed with
  | false => exact h
  | true => exact ⟨_, _, rfl, rfl⟩

theorem BeginsExpression.append {kinds : List TokenKind} (h : BeginsExpression kinds)
    (rest : List TokenKind) : BeginsExpression (kinds ++ rest) := by
  obtain ⟨first, others, rfl, hfirst⟩ := h
  exact ⟨first, others ++ rest, rfl, hfirst⟩

/-- Every form of expression begins with its leftmost operand, or with a token of its own. -/
theorem Expr.beginsExpression_kinds : (e : Expr) → BeginsExpression e.kinds
  | .integer .. | .float .. | .string .. | .identifier .. | .call .. | .array .. | .tuple .. =>
    ⟨_, _, rfl, rfl⟩
  | .unary _ op _ => ⟨op.kind, _, rfl, by cases op <;> rfl⟩
  | .binary _ _ left _ => ((Expr.beginsExpression_kinds left).grouped _).append _
  | .member _ base _ => ((Expr.beginsExpression_kinds base).grouped _).append _
  | .index _ base _ => ((Expr.beginsExpression_kinds base).grouped _).append _

/-! ### Ranks -/

/-- No operator has the precedence that ends a climb. -/
theorem BinaryOp.precedence_pos (op : BinaryOp) : 0 < op.precedence := by
  cases op <;> decide

/-- Zero is left for a context that asks for nothing. -/
theorem Expr.rank_pos (e : Expr) : 0 < e.rank := by
  cases e with
  | binary _ op _ _ => exact op.precedence_pos
  | _ => exact Nat.succ_pos _

namespace Parse

namespace Continuation

/-- The rank of the expression that a continuation makes. -/
def rank : Continuation → Nat
  | .binary op => op.precedence
  | _ => Expr.tightest

/-- The token of a binary operator is recognised as this operator. -/
theorem ofToken?_kind (op : BinaryOp) : ofToken? op.kind = some (.binary op) := by
  cases op <;> rfl

/-- No binary operator binds more tightly than a unary one. -/
theorem precedence_binary_le (op : BinaryOp) : op.precedence ≤ unaryPrecedence := by
  cases op <;> decide

/-- Operators that bind no more tightly than a unary one end its operand. -/
theorem precedence_le_of_rank_le {c : Continuation} (h : c.rank ≤ unaryPrecedence + 1) :
    c.precedence ≤ unaryPrecedence := by
  cases c with
  | binary op => exact precedence_binary_le op
  | _ => exact absurd h (by decide)

end Continuation

/-- What the token after an expression may be, if the expression stands where a rank is asked
for: nothing that would make an expression of a higher rank. -/
def Ends (least : Nat) (next : TokenKind) : Prop :=
  ∀ c ∈ Continuation.ofToken? next, c.rank ≤ least

variable {deep : Prop} {next : TokenKind} {rest after : List TokenKind} {Q : Expr → Prop}

/-- What can follow a whole expression ends it in every context. -/
theorem EndsExpression.ends (h : EndsExpression next) (least : Nat) : Ends least next := by
  intro c hc
  rw [h] at hc
  cases hc

/-- Nothing is folded in if what follows does not bind tightly enough. -/
theorem reads_climb_stop {precedence : Nat}
    (h : ∀ c ∈ Continuation.ofToken? next, c.precedence ≤ precedence) (levels : Nat)
    (left : Expr) :
    Reads deep (climb levels precedence left) (next :: rest) (· = left) (next :: rest) := by
  have hnone : (Continuation.ofToken? next).filter (precedence < ·.precedence) = none := by
    rw [Option.filter_eq_none_iff]
    intro c hc
    have := h c hc
    simpa using this
  cases levels <;> rw [climb]
  all_goals
    refine ((takes_continuation precedence).reads rfl).bind fun c hc => ?_
    rw [hc, hnone]
    exact reads_pure rfl

/-- A continuation that binds tightly enough is folded in, if there is a level for it. -/
theorem Reads.climb {c : Continuation} {precedence : Nat} {R : Expr → Prop} {left : Expr}
    {kinds : List TokenKind} (hc : Continuation.ofToken? next = some c)
    (hprecedence : precedence < c.precedence) {levels : Nat} (hdeep : levels = 0 → deep)
    (hextend : ∀ n, levels = n + 1 →
      Reads deep (extend (expression n) left c) (next :: rest) R kinds)
    (hclimb : ∀ n e, levels = n + 1 → R e → Reads deep (climb n precedence e) kinds Q after) :
    Reads deep (Parse.climb levels precedence left) (next :: rest) Q after := by
  have hsome : (Continuation.ofToken? next).filter (precedence < ·.precedence) = some c := by
    rw [hc, Option.filter_some, if_pos (by simpa using hprecedence)]
  cases levels with
  | zero =>
    rw [Parse.climb]
    refine ((takes_continuation precedence).reads rfl).bind fun c' hc' => ?_
    rw [hc', hsome]
    -- no level is left for the operator, which is allowed only where reading may be too deep
    exact reads_tooDeep (hdeep rfl)
  | succ n =>
    rw [Parse.climb]
    refine ((takes_continuation precedence).reads rfl).bind fun c' hc' => ?_
    rw [hc', hsome]
    exact (hextend n rfl).bind fun e he => hclimb n e rfl he

/-! ### Expressions in their context -/

/-- Tokens that are written for an expression are read as this expression, in every context that
asks for the rank. `levels'` levels are left for the rest of the climb. -/
def IsReadAt (deep : Prop) (e : Expr) (write : List TokenKind) (least : Nat) : Prop :=
  ∀ (levels precedence : Nat) (next : TokenKind) (rest after : List TokenKind) (Q : Expr → Prop),
    precedence ≤ unaryPrecedence → precedence < least → Ends least next →
    (levels < write.length → deep) →
    (∀ levels' e', e'.unlocated = e.unlocated → levels ≤ levels' + write.length →
      Reads deep (climb levels' precedence e') (next :: rest) Q after) →
    Reads deep (expression levels precedence) (write ++ next :: rest) Q after

/-- An expression is read from its tokens wherever it needs no parentheses. -/
def IsRead (deep : Prop) (e : Expr) : Prop :=
  ∀ least ≤ e.rank, IsReadAt deep e e.kinds least

variable {e left : Expr} {write : List TokenKind} {least : Nat}

/-- What is read at once, before any operator is folded in. -/
theorem isReadAt_of_operand (hwrite : 0 < write.length)
    (h : ∀ n next rest, Ends least next → (n + 1 < write.length → deep) →
      Reads deep (operand (expression n)) (write ++ next :: rest) (·.unlocated = e.unlocated)
        (next :: rest)) :
    IsReadAt deep e write least := by
  intro levels precedence next rest after Q _ _ hnext hshort hclimb
  cases levels with
  | zero =>
    rw [expression]
    exact reads_tooDeep (hshort hwrite)
  | succ n =>
    rw [expression]
    exact (h n next rest hnext hshort).bind fun e' he' => hclimb n e' he' (by omega)

/-- What is folded into an expression to its left. The levels that are left after that expression
are enough unless there are fewer than the tokens up to here. -/
theorem isReadAt_of_extension {writeLeft tail : List TokenKind} {leastLeft : Nat}
    (c : Continuation) (op : TokenKind) (hop : Continuation.ofToken? op = some c)
    (hleft : IsReadAt deep left writeLeft leastLeft) (hc : c.rank ≤ leastLeft)
    (hleast : least ≤ c.rank)
    (h : ∀ n left' next rest, left'.unlocated = left.unlocated → Ends least next →
      (n < tail.length → deep) →
      Reads deep (extend (expression n) left' c) (op :: (tail ++ next :: rest))
        (·.unlocated = e.unlocated) (next :: rest)) :
    IsReadAt deep e (writeLeft ++ op :: tail) least := by
  intro levels precedence next rest after Q hunary hprecedence hnext hshort hclimb
  rw [List.length_append, List.length_cons] at hshort
  have htight : precedence < c.precedence := by
    cases c with
    | binary op => exact Nat.lt_of_lt_of_le hprecedence hleast
    | _ => exact Nat.lt_succ_of_le hunary
  -- the operator ends its left side, which binds at least as tightly
  have hends : Ends leastLeft op := by
    intro c' hc'
    rw [hop] at hc'
    rwa [← Option.some.inj hc']
  rw [List.append_assoc, List.cons_append]
  -- the left side is read first, and climbing goes on with the operator
  refine hleft levels precedence op _ after Q hunary (by omega) hends (fun _ => hshort (by omega))
    fun levels' left' hleft' hlevels => ?_
  refine Reads.climb hop htight (fun hzero => hshort (by omega))
    (fun n hn => h n left' next rest hleft' hnext fun hn' => hshort (by omega))
    fun n e' hn he' => hclimb n e' he' ?_
  rw [List.length_append, List.length_cons]
  omega

/-- The climb ends at a token that does not bind tightly enough. -/
theorem IsReadAt.reads (h : IsReadAt deep e write least) {levels precedence : Nat}
    (hunary : precedence ≤ unaryPrecedence) (hleast : precedence < least) (hnext : Ends least next)
    (hstop : ∀ c ∈ Continuation.ofToken? next, c.precedence ≤ precedence)
    (hshort : levels < write.length → deep) :
    Reads deep (expression levels precedence) (write ++ next :: rest)
      (·.unlocated = e.unlocated) (next :: rest) := by
  refine h levels precedence next rest _ _ hunary hleast hnext hshort fun levels' e' he' _ => ?_
  exact (reads_climb_stop hstop levels' e').weaken fun e'' he'' => he'' ▸ he'

/-- An expression on its own. -/
theorem IsRead.reads (h : IsRead deep e) {levels : Nat} (next : TokenKind)
    (hnext : EndsExpression next) (hshort : levels < e.kinds.length → deep) :
    Reads deep (expression levels lowest) (e.kinds ++ next :: rest)
      (·.unlocated = e.unlocated) (next :: rest) := by
  refine (h 1 e.rank_pos).reads (by decide) (by decide) (hnext.ends 1) (fun c hc => ?_) hshort
  rw [hnext] at hc
  cases hc

/-- An expression in parentheses is read in every context. -/
theorem IsRead.grouped (h : IsRead deep e) (least : Nat) :
    IsReadAt deep e (e.kindsAt least) least := by
  by_cases hrank : e.rank < least
  · rw [Expr.kindsAt, decide_eq_true hrank, TokenKind.grouped, if_pos rfl]
    refine isReadAt_of_operand (by simp) fun n next rest _ hshort => ?_
    rw [List.length_cons, List.length_append, List.length_singleton] at hshort
    rw [List.cons_append, List.append_assoc, List.singleton_append]
    refine (reads_advance rfl (by simp)).bind fun token htoken => ?_
    rw [htoken]
    refine (h.reads .rparen rfl fun hn => hshort (by omega)).bind fun e' he' => ?_
    refine (reads_check _).bind fun _ hcomma => ?_
    rw [hcomma, if_neg (by decide)]
    exact (reads_expect rfl (by simp)).bind fun _ _ => reads_pure he'
  · rw [Expr.kindsAt, decide_eq_false hrank]
    exact h least (Nat.le_of_not_lt hrank)

/-! ### Operands

What the parser reads before it looks for an operator. -/

/-- The literal is put into the pool, or the pool has no room for it. -/
theorem reads_operand_string (inner : Nat → ParseM Expr) (text : String) :
    Reads deep (operand inner) (.string text :: next :: rest)
      (·.unlocated = .string default text) (next :: rest) := by
  intro p hp
  obtain ⟨token, p', hadvance, htoken, hfaces, hstrings⟩ := takes_advance p hp
  have hrun : operand inner p =
      (do intern text token.location; return Expr.string token.location text : ParseM Expr) p' := by
    show EStateM.bind advance _ p = _
    rw [EStateM.bind, hadvance]
    simp only [htoken]
  have htexts : TokenKind.texts (.string text :: next :: rest) =
      text :: TokenKind.texts (next :: rest) := rfl
  rw [hrun, htexts, ← hstrings]
  -- adding the text to the pool is the one thing that can fail
  show Outcome _ _ _ _ (EStateM.bind (intern text token.location) _ p')
  rw [EStateM.bind, intern, StringPool.internAll?]
  cases p'.strings.intern? text with
  | none => exact rfl
  | some found => exact ⟨rfl, hfaces, rfl⟩

theorem isRead_integer {location : Location} {value : Int} (h : 0 ≤ value) :
    IsRead deep (.integer location value) := by
  refine fun least _ => isReadAt_of_operand (by simp) fun n next rest _ _ => ?_
  refine (reads_advance rfl (by simp)).bind fun token htoken => ?_
  rw [htoken]
  refine reads_pure ?_
  rw [Expr.unlocated, Expr.unlocated, Int.toNat_of_nonneg h]

/-- A string literal is an operand, and its text goes into the pool. -/
theorem isRead_string {location : Location} {text : String} :
    IsRead deep (.string location text) := fun _ _ =>
  isReadAt_of_operand (by simp) fun _ _ _ _ _ => reads_operand_string _ text

theorem isRead_identifier {location : Location} {name : String} :
    IsRead deep (.identifier location name) := by
  refine fun least _ => isReadAt_of_operand (by simp) fun n next rest _ _ => ?_
  refine (reads_advance rfl (by simp)).bind fun token htoken => ?_
  rw [htoken]
  exact reads_pure rfl

/-- The operand of a unary operator is read in a context of the operator's own rank. -/
theorem isRead_unary {location : Location} {op : UnaryOp} (h : IsRead deep e) :
    IsRead deep (.unary location op e) := by
  refine fun least hleast => isReadAt_of_operand (by simp)
    fun n next rest hnext hshort => ?_
  have hnext : Ends (unaryPrecedence + 1) next := fun c hc => Nat.le_trans (hnext c hc) hleast
  have hoperand : Reads deep (expression n unaryPrecedence)
      (e.kindsAt (unaryPrecedence + 1) ++ next :: rest) (·.unlocated = e.unlocated)
      (next :: rest) :=
    (h.grouped _).reads (Nat.le_refl _) (Nat.lt_succ_self _) hnext
      (fun c hc => Continuation.precedence_le_of_rank_le (hnext c hc))
      fun hn => hshort (Nat.succ_lt_succ hn)
  refine (reads_advance (by cases op <;> rfl) (by simp)).bind fun token htoken => ?_
  rw [htoken]
  cases op with
  | negate | not =>
    exact hoperand.bind fun e' he' => reads_pure (by rw [Expr.unlocated, Expr.unlocated, he'])

/-- An expression in a list. -/
theorem IsRead.item (h : IsRead deep e) (close : TokenKind) (hclose : EndsExpression close)
    (hrest : EndsItem close rest) {levels : Nat} (hshort : levels < e.kinds.length → deep) :
    Reads deep (expression levels lowest) (e.kinds ++ rest) (·.unlocated = e.unlocated) rest := by
  obtain ⟨next, rest, rfl⟩ := List.exists_cons_of_ne_nil hrest.ne_nil
  refine h.reads next ?_ hshort
  rcases hrest with hnext | hnext
  · rw [Option.some.inj hnext]
    rfl
  · rwa [Option.some.inj hnext]

/-- Expressions in brackets, with commas between them. -/
theorem reads_expressionList {es : List Expr} {close : TokenKind} {n : Nat}
    (h : ∀ e ∈ es, IsRead deep e) (hclose : close = .rparen ∨ close = .rbracket)
    (hshort : n < (commas (es.map Expr.kinds)).length → deep) (hrest : rest ≠ []) :
    Reads deep (expressionList (expression n) close)
      (commas (es.map Expr.kinds) ++ close :: rest)
      (·.map Expr.unlocated = es.map Expr.unlocated) rest := by
  have hplain : close ≠ .comma ∧ close.text? = none ∧ EndsExpression close ∧
      close.beginsExpression = false := by
    rcases hclose with rfl | rfl
    · exact ⟨by decide, rfl, rfl, rfl⟩
    · exact ⟨by decide, rfl, rfl, rfl⟩
  obtain ⟨hcomma, htext, hends, hbegins⟩ := hplain
  refine Reads.commaList hcomma (fun e _ => ?_) (fun e he rest hrest => ?_)
    fun items hitems => (reads_expect htext hrest).bind fun _ _ => reads_pure hitems
  · obtain ⟨first, others, hkinds, hfirst⟩ := e.beginsExpression_kinds
    refine ⟨first, others, hkinds, ?_⟩
    -- an expression does not begin with what closes the list
    rintro rfl
    rw [hbegins] at hfirst
    cases hfirst
  · have hlength := length_le_of_mem_commas (List.mem_map_of_mem (f := Expr.kinds) he)
    exact (h e he).item close hends hrest fun hn => hshort (by omega)

/-- The items of an array are read one by one, each in a context that asks for nothing. -/
theorem isRead_array {location : Location} {items : List Expr} (h : ∀ e ∈ items, IsRead deep e) :
    IsRead deep (.array location items) := by
  refine fun least _ => isReadAt_of_operand (by simp) fun n next rest _ hshort => ?_
  rw [Expr.kinds, Expr.kindsAll_eq_map] at hshort ⊢
  rw [List.length_cons, List.length_append] at hshort
  rw [List.cons_append, List.append_assoc, List.singleton_append]
  refine (reads_advance rfl (by simp)).bind fun token htoken => ?_
  rw [htoken]
  refine (reads_expressionList h (.inr rfl) (fun hn => hshort (by omega)) (by simp)).bind
    fun es hes => reads_pure ?_
  rw [Expr.unlocated, Expr.unlocated, Expr.unlocatedAll_eq_map, Expr.unlocatedAll_eq_map, hes]

/-- A tuple is told from a parenthesised expression by the comma after its first element. -/
theorem isRead_tuple {location : Location} {first : Expr} {others : List Expr}
    (h : ∀ e ∈ first :: others, IsRead deep e) :
    IsRead deep (.tuple location (first :: others)) := by
  refine fun least _ => isReadAt_of_operand (by simp) fun n next rest _ hshort => ?_
  rw [Expr.kinds, Expr.kindsAll_eq_map] at hshort ⊢
  rw [List.length_cons, List.length_append] at hshort
  have hitem (e : Expr) (he : e ∈ first :: others) (rest : List TokenKind)
      (hrest : EndsItem .rparen rest) : Reads deep (expression n lowest) (e.kinds ++ rest)
        (·.unlocated = e.unlocated) rest := by
    have hlength := length_le_of_mem_elements (List.mem_map_of_mem (f := Expr.kinds) he)
    exact (h e he).item .rparen rfl hrest fun hn => hshort (by omega)
  have hmore : Reads deep (many anotherElement (expression n lowest))
      (otherElements (others.map Expr.kinds) ++ .rparen :: next :: rest)
      (·.map Expr.unlocated = others.map Expr.unlocated) (.rparen :: next :: rest) := by
    refine reads_otherElements (fun e _ => ?_) fun e he => hitem e (List.mem_cons_of_mem _ he)
    obtain ⟨first, others, hkinds, hfirst⟩ := e.beginsExpression_kinds
    exact ⟨first, others, hkinds, by rintro rfl; cases hfirst⟩
  obtain ⟨ks, hks⟩ := exists_otherElements_eq_cons (others.map Expr.kinds)
  rw [List.map_cons, elements, List.cons_append, List.append_assoc, List.append_assoc,
    List.singleton_append]
  refine (reads_advance rfl (by simp)).bind fun token htoken => ?_
  rw [htoken]
  -- a comma always follows the first element
  have hcomma : EndsItem .rparen (otherElements (others.map Expr.kinds) ++
      .rparen :: next :: rest) := .inl (by rw [hks]; rfl)
  refine (hitem first List.mem_cons_self _ hcomma).bind fun first' hfirst' => ?_
  rw [hks] at hmore ⊢
  refine (reads_check _).bind fun _ hcheck => ?_
  rw [hcheck, if_pos (by simp)]
  refine hmore.bind fun others' hothers' => ?_
  refine (reads_expect rfl (by simp)).bind fun _ _ => reads_pure ?_
  rw [Expr.unlocated, Expr.unlocated, Expr.unlocatedAll_eq_map, Expr.unlocatedAll_eq_map,
    List.map_cons, List.map_cons, hfirst', hothers']

/-! ### Continuations

What is folded into an expression that has been read. -/

/-- The left operand is in the middle of the climb, and the right one is climbed one rank higher. -/
theorem isRead_binary {location : Location} {op : BinaryOp} {right : Expr}
    (hleft : IsRead deep left) (hright : IsRead deep right) :
    IsRead deep (.binary location op left right) := by
  refine fun least hleast => isReadAt_of_extension (.binary op) op.kind
    (Continuation.ofToken?_kind op) (hleft.grouped op.precedence) (Nat.le_refl _) hleast
    fun n left' next rest hleft' hnext hshort => ?_
  have htext : op.kind.text? = none := by cases op <;> rfl
  have hnext : Ends op.precedence next := fun c hc => Nat.le_trans (hnext c hc) hleast
  -- what binds as tightly as the operator itself ends its right operand, so it groups to the left
  have hstop : ∀ c ∈ Continuation.ofToken? next, c.precedence ≤ op.precedence := by
    intro c hc
    have hrank := hnext c hc
    cases c with
    | binary op' => exact hrank
    | _ => exact absurd (Nat.le_trans hrank (Continuation.precedence_binary_le op)) (by decide)
  refine (reads_advance htext (by simp)).bind fun _ _ => ?_
  have hoperand : Reads deep (expression n op.precedence)
      (right.kindsAt (op.precedence + 1) ++ next :: rest) (·.unlocated = right.unlocated)
      (next :: rest) :=
    (hright.grouped _).reads (Continuation.precedence_binary_le op) (Nat.lt_succ_self _)
      (fun c hc => Nat.le_succ_of_le (hnext c hc)) hstop hshort
  refine hoperand.bind fun right' hright' => reads_pure ?_
  rw [Expr.unlocated, Expr.unlocated, hleft', hright']

/-- A call is a continuation of the name that is called. -/
theorem isRead_call {location : Location} {callee : String} {args : List Expr}
    (h : ∀ e ∈ args, IsRead deep e) : IsRead deep (.call location callee args) := by
  have hname : IsReadAt deep (.identifier default callee) [.identifier callee] Expr.tightest :=
    isRead_identifier _ (Nat.le_refl _)
  rintro least hleast
  rw [Expr.kinds, Expr.kindsAll_eq_map]
  refine isReadAt_of_extension .call .lparen rfl hname (Nat.le_refl _) hleast
    fun n left' next rest hleft' _ hshort => ?_
  -- the callee is a name, wherever it was read
  obtain ⟨location', rfl⟩ : ∃ location', left' = .identifier location' callee := by
    cases left' with
    | identifier location' name =>
      simp only [Expr.unlocated, Expr.identifier.injEq] at hleft'
      exact ⟨location', by rw [hleft'.2]⟩
    | _ => simp [Expr.unlocated] at hleft'
  rw [List.length_append] at hshort
  rw [List.append_assoc, List.singleton_append]
  refine (reads_advance rfl (by simp)).bind fun _ _ => ?_
  refine (reads_expressionList h (.inl rfl) (fun hn => hshort (by omega)) (by simp)).bind
    fun es hes => reads_pure ?_
  rw [Expr.unlocated, Expr.unlocated, Expr.unlocatedAll_eq_map, Expr.unlocatedAll_eq_map, hes]

/-- A field is a continuation of the expression before the dot. -/
theorem isRead_member {location : Location} {name : String} (hleft : IsRead deep left) :
    IsRead deep (.member location left name) := by
  refine fun least hleast => isReadAt_of_extension .member .dot rfl
    (hleft.grouped Expr.tightest) (Nat.le_refl _) hleast fun n left' next rest hleft' _ _ => ?_
  refine (reads_advance rfl (by simp)).bind fun _ _ => ?_
  refine (reads_expectName .fieldName (by simp)).bind fun name' hname' => reads_pure ?_
  rw [Expr.unlocated, Expr.unlocated, hleft', hname']

/-- An index is a continuation of the expression before the bracket, and brackets ask for
nothing. -/
theorem isRead_index {location : Location} {position : Expr} (hleft : IsRead deep left)
    (hposition : IsRead deep position) : IsRead deep (.index location left position) := by
  refine fun least hleast => isReadAt_of_extension .index .lbracket rfl
    (hleft.grouped Expr.tightest) (Nat.le_refl _) hleast fun n left' next rest hleft' _ hshort => ?_
  rw [List.length_append] at hshort
  rw [List.append_assoc, List.singleton_append]
  refine (reads_advance rfl (by simp)).bind fun _ _ => ?_
  refine (hposition.reads .rbracket rfl fun hn => hshort (by omega)).bind
    fun position' hposition' => ?_
  refine (reads_expect rfl (by simp)).bind fun _ _ => reads_pure ?_
  rw [Expr.unlocated, Expr.unlocated, hleft', hposition']

mutual

/-- Every expression that can be written is read from its tokens. -/
theorem isRead_of_isWritable : (e : Expr) → e.isWritable → IsRead deep e
  | .integer .., h => isRead_integer (of_decide_eq_true (Bool.and_eq_true_iff.mp h).1)
  | .float .., h => by cases h
  | .string .., _ => isRead_string
  | .identifier .., _ => isRead_identifier
  | .unary _ _ operand, h => isRead_unary (isRead_of_isWritable operand h)
  | .binary _ _ left right, h =>
    have h := Bool.and_eq_true_iff.mp h
    isRead_binary (isRead_of_isWritable left h.1) (isRead_of_isWritable right h.2)
  | .call _ _ args, h => isRead_call (isRead_of_mem args (Bool.and_eq_true_iff.mp h).2)
  | .member _ base _, h => isRead_member (isRead_of_isWritable base (Bool.and_eq_true_iff.mp h).1)
  | .index _ base position, h =>
    have h := Bool.and_eq_true_iff.mp h
    isRead_index (isRead_of_isWritable base h.1) (isRead_of_isWritable position h.2)
  | .array _ items, h => isRead_array (isRead_of_mem items h)
  | .tuple _ [], h => by cases h
  | .tuple _ (first :: others), h =>
    isRead_tuple (isRead_of_mem (first :: others) (Bool.and_eq_true_iff.mp h).2)

theorem isRead_of_mem : (es : List Expr) → Expr.allWritable es → ∀ e ∈ es, IsRead deep e
  | [], _ => by simp
  | e :: es, h =>
    have h := Bool.and_eq_true_iff.mp h
    List.forall_mem_cons.mpr ⟨isRead_of_isWritable e h.1, isRead_of_mem es h.2⟩

end

end Parse

end WasmCompiler
