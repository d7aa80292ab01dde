import WasmCompiler.Tree.Parser.Stmt

/-!
# What parsers are made of

Every parser of the language is put together from a few operations on tokens and literals:
`Built m` says that `m` is. So what these operations keep, every parser keeps, and there is one
induction for all such facts instead of a walk through the language for each of them.

The lemmas follow the definitions of the parsers, and say nothing else about them.

`built_expression` goes by induction over the levels of nesting that are left and `levelBuilt` does
so for statements, as the parsers themselves do. `built_program` is the whole language.
-/

namespace WasmCompiler.Parse

/-- Parsers that are put together from the operations on tokens and literals. -/
inductive Built : {α : Type} → ParseM α → Prop where
  | pure {α : Type} (a : α) : Built (Pure.pure a : ParseM α)
  | throw {α : Type} (e : ParseError) : Built (MonadExcept.throw e : ParseM α)
  | bind {α β : Type} {m : ParseM α} {f : α → ParseM β} (hm : Built m) (hf : ∀ a, Built (f a)) :
      Built (m >>= f)
  | advance : Built Parse.advance
  | peek : Built Parse.peek
  | rounds : Built Parse.rounds
  | intern (text : String) (location : Location) : Built (Parse.intern text location)

variable {α β : Type}

theorem Built.map {m : ParseM α} (hm : Built m) (f : α → β) : Built (f <$> m) := by
  rw [map_eq_pure_bind]
  exact hm.bind fun _ => .pure _

/-- A parser may choose by what it knows. -/
theorem Built.ite {c : Prop} [Decidable c] {m m' : ParseM α} (hm : Built m) (hm' : Built m') :
    Built (if c then m else m') := by
  split
  · exact hm
  · exact hm'

/-- An optional part, and what follows it. -/
theorem Built.optional {item : ParseM α} {found : Bool} {f : Option α → ParseM β}
    (hitem : Built item) (hf : ∀ a, Built (f a)) :
    Built (if found then (some <$> item) >>= f else Pure.pure none >>= f) :=
  ((hitem.map some).bind hf).ite ((Built.pure none).bind hf)

/-! ### Tokens

No parser looks at a token in another way than these. -/

theorem built_check (kind : TokenKind) : Built (check kind) :=
  Built.peek.bind fun _ => .pure _

/-- A failure is an error after a look at the current token. -/
theorem built_fail (what : Malformed) : Built (fail what : ParseM α) :=
  Built.peek.bind fun _ => .throw _

theorem built_unexpected (wanted : Wanted) : Built (unexpected wanted : ParseM α) :=
  Built.peek.bind fun _ => .throw _

/-- A token that is wanted is looked at, and taken or reported. -/
theorem built_expect (kind : TokenKind) : Built (expect kind) :=
  (built_check kind).bind fun _ => Built.advance.ite (built_unexpected _)

/-- A name that is wanted is looked at, and taken or reported. -/
theorem built_expectName (wanted : Wanted) : Built (expectName wanted) := by
  apply Built.peek.bind
  intro token
  split
  · exact Built.advance.bind fun _ => .pure _
  · exact built_unexpected wanted

/-- A token that may be there is looked at, and taken if it is. -/
theorem built_accept (kind : TokenKind) : Built (accept kind) := by
  apply (built_check kind).bind
  intro found
  exact (Built.advance.bind fun _ => .pure true).ite (.pure false)

/-! ### Repetition

The rounds of a repetition are counted by `rounds`, so a repetition is a sequence of as many
parsers. -/

theorem built_manyUpTo {more : ParseM Bool} {item : ParseM α} (hmore : Built more)
    (hitem : Built item) (n : Nat) : Built (manyUpTo more item n) := by
  induction n with
  | zero => exact .pure []
  | succ n ih =>
    apply hmore.bind
    intro found
    exact (hitem.bind fun _ => ih.bind fun _ => .pure _).ite (.pure [])

/-- A repetition first asks how many rounds there can be. -/
theorem built_many {more : ParseM Bool} {item : ParseM α} (hmore : Built more)
    (hitem : Built item) : Built (many more item) :=
  Built.rounds.bind fun _ => built_manyUpTo hmore hitem _

theorem built_commaSeparatedUpTo {item : ParseM α} (hitem : Built item) (n : Nat) :
    Built (commaSeparatedUpTo item n) := by
  induction n with
  | zero => exact .pure []
  | succ n ih =>
    apply hitem.bind
    intro x
    apply (built_accept .comma).bind
    intro found
    exact (ih.bind fun _ => .pure _).ite (.pure _)

/-- A list with commas keeps to the operations that its items keep to. It has at least one item. -/
theorem built_commaSeparated {item : ParseM α} (hitem : Built item) :
    Built (commaSeparated item) :=
  Built.rounds.bind fun _ => built_commaSeparatedUpTo hitem _

/-- After a comma a tuple goes on unless it is closed. -/
theorem built_anotherElement : Built anotherElement := by
  apply (built_accept .comma).bind
  intro found
  exact ((built_check .rparen).bind fun _ => .pure _).ite (.pure false)

/-- Semicolons are a repetition of their own. -/
theorem built_skipSemicolons : Built skipSemicolons :=
  (built_many (built_accept .semicolon) (.pure ())).bind fun _ => .pure ()

theorem built_notAt (close : TokenKind) : Built (notAt close) :=
  Built.peek.bind fun _ => .pure _

/-! ### Annotations

They nest without a level, and their rounds are counted in the same way. -/

/-- By induction over the rounds that are left. -/
theorem built_typeNameUpTo (n : Nat) : Built (typeNameUpTo n) := by
  induction n with
  | zero => exact built_unexpected .type
  | succ n ih =>
    apply Built.peek.bind
    intro token
    split
    · exact Built.advance.bind fun _ => .pure _
    · apply Built.advance.bind
      intro _
      exact ih.bind fun _ => (built_expect .rbracket).bind fun _ => .pure _
    · apply Built.advance.bind
      intro _
      apply ih.bind
      intro first
      apply (built_check .comma).bind
      intro found
      have hothers := built_many built_anotherElement ih
      exact (hothers.bind fun _ => (built_expect .rparen).bind fun _ => .pure _).ite
        ((built_expect .rparen).bind fun _ => .pure _)
    · exact built_unexpected .type

theorem built_typeName : Built typeName :=
  Built.rounds.bind fun n => built_typeNameUpTo n

theorem built_field (wanted : Wanted) : Built (field wanted) := by
  apply (built_expectName wanted).bind
  rintro ⟨name, location⟩
  apply (built_expect .colon).bind
  intro _
  exact built_typeName.bind fun _ => .pure _

/-! ### Expressions

The parsers of parts are given the parser of expressions with one level less. -/

section Expressions

variable {inner : Nat → ParseM Expr} (hinner : ∀ k, Built (inner k))
include hinner

/-- A list may be empty, which its closing token shows. -/
theorem built_expressionList (close : TokenKind) : Built (expressionList inner close) := by
  have hclose (items : List Expr) : Built (do let _ ← expect close; return items) :=
    (built_expect close).bind fun _ => .pure items
  apply (built_check close).bind
  intro found
  exact ((Built.pure []).bind hclose).ite ((built_commaSeparated (hinner lowest)).bind hclose)

/-- After a parenthesis comes a group, or a tuple if a comma follows the first expression. -/
theorem built_parenthesised (location : Location) : Built (parenthesised inner location) := by
  apply (hinner lowest).bind
  intro first
  apply (built_check .comma).bind
  intro found
  have hothers := built_many built_anotherElement (hinner lowest)
  exact (hothers.bind fun _ => (built_expect .rparen).bind fun _ => .pure _).ite
    ((built_expect .rparen).bind fun _ => .pure _)

/-- One case for each token that an operand can begin with. -/
theorem built_operand : Built (operand inner) := by
  apply Built.advance.bind
  intro token
  dsimp only
  split
  · exact .pure _
  · exact .pure _
  · exact .pure _
  · exact .pure _
  · exact (Built.intern _ _).bind fun _ => .pure _
  · exact .pure _
  · exact (hinner unaryPrecedence).bind fun _ => .pure _
  · exact (hinner unaryPrecedence).bind fun _ => .pure _
  · exact built_parenthesised hinner _
  · exact (built_expressionList hinner .rbracket).bind fun _ => .pure _
  · exact .throw _

/-- One case for each way to go on behind an operand. -/
theorem built_extend (left : Expr) (c : Continuation) : Built (extend inner left c) := by
  apply Built.advance.bind
  intro token
  cases c with
  | call =>
    cases left with
    | identifier location callee =>
      exact (built_expressionList hinner .rparen).bind fun _ => .pure _
    | _ => exact .throw _
  | index =>
    apply (hinner lowest).bind
    intro index
    exact (built_expect .rbracket).bind fun _ => .pure _
  | member => exact (built_expectName .fieldName).bind fun _ => .pure _
  | binary op => exact (hinner _).bind fun _ => .pure _

end Expressions

/-- What an operator is, and whether it binds tightly enough, is seen without taking it. -/
theorem built_continuation? (precedence : Nat) : Built (continuation? precedence) :=
  Built.peek.bind fun _ => .pure _

/-- The induction is on the levels that are left. -/
theorem built_expression_climb (levels : Nat) :
    (∀ precedence, Built (expression levels precedence)) ∧
      ∀ precedence left, Built (climb levels precedence left) := by
  induction levels with
  | zero =>
    refine ⟨fun precedence => built_fail .tooDeep, fun precedence left => ?_⟩
    apply (built_continuation? precedence).bind
    rintro (_ | c)
    · exact .pure left
    · exact built_fail .tooDeep
  | succ levels ih =>
    obtain ⟨hexpression, hclimb⟩ := ih
    refine ⟨fun precedence => ?_, fun precedence left => ?_⟩
    · apply (built_operand hexpression).bind
      exact fun left => hclimb precedence left
    · apply (built_continuation? precedence).bind
      rintro (_ | c)
      · exact .pure left
      · exact (built_extend hexpression left c).bind fun left => hclimb precedence left

theorem built_expression (levels precedence : Nat) : Built (expression levels precedence) :=
  (built_expression_climb levels).1 precedence

/-! ### Statements

The statements that hold no other statements. -/

theorem built_structField : Built (do
    let f ← field .fieldName
    let _ ← accept .comma
    return f) :=
  (built_field .fieldName).bind fun _ => (built_accept .comma).bind fun _ => .pure _

/-- The fields are repeated up to the closing brace. -/
theorem built_structDecl : Built structDecl := by
  apply (built_expect .kwStruct).bind
  intro token
  apply (built_expectName .structName).bind
  rintro ⟨name, _⟩
  apply (built_expect .lbrace).bind
  intro _
  apply (built_many (built_notAt .rbrace) built_structField).bind
  intro fields
  exact (built_expect .rbrace).bind fun _ => .pure _

theorem built_binding : Built binding := by
  apply (built_expectName .variableName).bind
  rintro ⟨name, location⟩
  apply (built_accept .colon).bind
  intro found
  exact built_typeName.optional fun _ => .pure _

theorem built_returnStmt (levels : Nat) : Built (returnStmt levels) := by
  apply (built_expect .kwReturn).bind
  intro token
  apply Built.peek.bind
  intro next
  have hend (value : Option Expr) : Built (pure (Stmt.ret token.location value)) := .pure _
  exact ((Built.pure none).bind hend).ite (((built_expression levels lowest).map some).bind hend)

/-- The keyword is taken without a look at it; the caller has seen it. -/
theorem built_declaration (levels : Nat) : Built (declaration levels) := by
  apply Built.advance.bind
  intro token
  apply (built_commaSeparated built_binding).bind
  intro bindings
  apply (built_accept .assign).bind
  intro found
  exact (built_expression levels lowest).optional fun _ => .pure _

theorem built_printStmt (levels : Nat) : Built (printStmt levels) := by
  apply (built_expect .kwPrint).bind
  intro token
  exact (built_expression levels lowest).bind fun _ => .pure _

/-- An expression is read first, and then it turns out whether it is a target. -/
theorem built_assignmentOrExpression (levels : Nat) : Built (assignmentOrExpression levels) := by
  apply Built.peek.bind
  intro start
  apply (built_expression levels lowest).bind
  intro target
  apply (built_check .assign).bind
  intro found
  apply Built.ite
  · have hassign : Built (do
        let _ ← advance
        let value ← expression levels lowest
        return Stmt.assign start.location target value) :=
      Built.advance.bind fun _ => (built_expression levels lowest).bind fun _ => .pure _
    exact hassign.ite ((Built.throw _).bind fun _ => hassign)
  · exact .pure _

/-! ### Blocks

The parsers of a level are given those of the next one, if there is one. -/

/-- The parsers of a level are put together so. -/
structure LevelBuilt (level : Level) : Prop where
  statement : Built level.statement
  conditional : Built level.conditional

section Nested

variable {inner : Option Level} (hinner : ∀ level ∈ inner, LevelBuilt level)

/-- Without a level to go down to there is nothing but a failure. -/
theorem built_descend {f : Level → ParseM α} (hf : ∀ level ∈ inner, Built (f level)) :
    Built (descend inner >>= f) := by
  cases inner with
  | none =>
    have hfails : (descend none >>= f) = fail .tooDeep := rfl
    exact hfails ▸ built_fail .tooDeep
  | some level => exact hf level rfl

include hinner

/-- A block goes down one level and repeats statements up to its closing brace. -/
theorem built_block : Built (block inner) := by
  apply (built_expect .lbrace).bind
  intro _
  apply built_descend
  intro level hlevel
  apply built_skipSemicolons.bind
  intro _
  apply (built_many (built_notAt .rbrace) (hinner level hlevel).statement).bind
  intro statements
  exact (built_expect .rbrace).bind fun _ => .pure _

/-- The parameters are missing if the parenthesis is closed at once. -/
theorem built_function (exported : Bool) : Built (function inner exported) := by
  apply (built_expect .kwFunc).bind
  intro token
  apply (built_expectName .functionName).bind
  rintro ⟨name, _⟩
  apply (built_expect .lparen).bind
  intro _
  -- what follows the parameters is the same with and without them
  have hrest (params : List Field) : Built (do
      let _ ← expect .rparen
      let returnType ← if ← accept .arrow then some <$> typeName else pure none
      let body ← block inner
      return Stmt.function token.location ⟨name, params, returnType, exported⟩ body) := by
    apply (built_expect .rparen).bind
    intro _
    apply (built_accept .arrow).bind
    intro found
    exact built_typeName.optional fun _ => (built_block hinner).bind fun _ => .pure _
  apply (built_check .rparen).bind
  intro found
  exact ((Built.pure []).bind hrest).ite
    ((built_commaSeparated (built_field .parameterName)).bind hrest)

theorem built_exportedFunction : Built (exportedFunction inner) := by
  apply (built_expect .kwExport).bind
  intro _
  apply (built_check .kwFunc).bind
  intro found
  exact (built_function hinner true).ite (built_unexpected .functionAfterExport)

/-- Behind an `else` stands a conditional, one level down, or a block. -/
theorem built_alternate : Built (alternate inner) := by
  apply Built.peek.bind
  intro token
  apply Built.ite
  · exact built_descend fun level hlevel => (hinner level hlevel).conditional
  · exact (built_block hinner).bind fun _ => .pure _

/-- A condition, a block, and perhaps an alternate. -/
theorem built_conditional (levels : Nat) : Built (conditional levels inner) := by
  apply (built_expect .kwIf).bind
  intro token
  apply (built_expression levels lowest).bind
  intro condition
  apply (built_block hinner).bind
  intro body
  apply (built_accept .kwElse).bind
  intro found
  exact (built_alternate hinner).optional fun _ => .pure _

theorem built_whileLoop (levels : Nat) : Built (whileLoop levels inner) := by
  apply (built_expect .kwWhile).bind
  intro token
  apply (built_expression levels lowest).bind
  intro condition
  exact (built_block hinner).bind fun _ => .pure _

/-- The first token tells which statement it is. -/
theorem built_statement (levels : Nat) : Built (statement levels inner) := by
  have hend (stmt : Stmt) : Built (do skipSemicolons; return stmt) :=
    built_skipSemicolons.bind fun _ => .pure stmt
  apply Built.peek.bind
  intro token
  split
  · exact (built_exportedFunction hinner).bind hend
  · exact (built_function hinner false).bind hend
  · exact (built_returnStmt levels).bind hend
  · exact (built_declaration levels).bind hend
  · exact (built_declaration levels).bind hend
  · exact (built_conditional hinner levels).bind hend
  · exact (built_whileLoop hinner levels).bind hend
  · exact (built_printStmt levels).bind hend
  · exact built_structDecl.bind hend
  · exact ((built_block hinner).map _).bind hend
  · exact (built_assignmentOrExpression levels).bind hend

end Nested

/-- By induction over the levels that are left. -/
theorem levelBuilt (levels : Nat) : LevelBuilt (level levels) := by
  induction levels with
  | zero =>
    have hnone : ∀ level ∈ (none : Option Level), LevelBuilt level := nofun
    exact ⟨built_statement hnone 0, built_conditional hnone 0⟩
  | succ levels ih =>
    have hinner : ∀ inner ∈ some (level levels), LevelBuilt inner := by
      intro inner hmem
      rw [← Option.some.inj hmem]
      exact ih
    exact ⟨built_statement hinner _, built_conditional hinner _⟩

/-- Statements are repeated up to the end of the text. -/
theorem built_program : Built program := by
  apply built_skipSemicolons.bind
  intro _
  exact (built_many (built_notAt .endOfInput) (levelBuilt maxNesting).statement).bind fun _ =>
    .pure _

/-! ### Texts

A text can be parsed if a parser can begin on it, which takes its first lexeme. -/

/-- A parser that can begin on a text begins in the same way with any other pool. -/
theorem start_eq_ok {text : String} {strings : StringPool} {p : Parser}
    (h : start text strings = .ok p) : p.strings = strings ∧
      ∀ strings', start text strings' = .ok { p with strings := strings' } := by
  unfold start at h ⊢
  split at h
  · obtain rfl := Except.ok.inj h
    exact ⟨rfl, fun _ => rfl⟩
  · cases h
  · obtain rfl := Except.ok.inj h
    exact ⟨rfl, fun _ => rfl⟩

/-- Parsing a text is beginning on it and running the parser of programs, and the pool is what that
run has made of it. -/
theorem parseProgram_eq_ok_iff {text : String} {strings strings' : StringPool} {tree : Program} :
    parseProgram text strings = (.ok tree, strings') ↔
      ∃ p p', start text strings = .ok p ∧ program p = .ok tree p' ∧ p'.strings = strings' := by
  unfold parseProgram
  constructor
  · intro h
    split at h
    · cases (Prod.mk.inj h).1
    · rename_i p hstart
      split at h
      · rename_i result p' hrun
        obtain ⟨hresult, hstrings⟩ := Prod.mk.inj h
        obtain rfl := Except.ok.inj hresult
        exact ⟨p, p', hstart, hrun, hstrings⟩
      · cases (Prod.mk.inj h).1
  · rintro ⟨p, p', hstart, hrun, rfl⟩
    simp only [hstart, hrun]

end WasmCompiler.Parse
