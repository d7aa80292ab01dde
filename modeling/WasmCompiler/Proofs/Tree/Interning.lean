import Mathlib.Data.List.Induction
import WasmCompiler.Proofs.Symbols.Pooling
import WasmCompiler.Proofs.Token.Tiling
import WasmCompiler.Proofs.Tree.Grammar

/-!
# The literals of a parsed text

A program is parsed from all tokens of its text: every statement takes at least one token
(`levelMoves`), so the repetition of statements ends at the end of the text and not before. The
string literals among these tokens go into the pool in order, and a literal that is already there
is not entered again (`StringPool.entries_internAll?`).

* `Steady` and `Moves` are what the parsers do to the tokens before them; the rules for a bind, a
  loop and a list carry both through;
* `levelMoves` is the induction on the levels of nesting, one rule for each statement;
* `consumes_program` puts a whole text together, and `tokenize_of_parseProgram` is the statement
  about `parseProgram`.
-/

namespace WasmCompiler

open TokenKind (texts)

/-! ### Interning in order

Interning the texts of a list one by one appends those that are new. -/

/-- The literals of a pool that started empty, each at its first occurrence. -/
theorem StringPool.entries_internAll? {pool : StringPool} {start : Nat} {literals : List String}
    (h : (StringPool.empty start).internAll? literals = some pool) :
    pool.entries.map (·.1) = literals.eraseDups := by
  induction literals using List.reverseRecOn generalizing pool with
  | nil =>
    obtain rfl := Option.some.inj h
    rfl
  | append_singleton literals text ih =>
    rw [internAll?_append, Option.bind_eq_some_iff] at h
    obtain ⟨before, hbefore, hlast⟩ := h
    simp only [internAll?] at hlast
    split at hlast
    · rename_i offset pool' hintern
      obtain rfl := Option.some.inj hlast
      exact entries_intern? hintern (ih hbefore)
    · cases hlast

namespace Parse

variable {α β : Type}

/-! ### Progress

The two properties, and how they pass through the operations of the monad. -/

/-- Whatever the operation is at, it takes tokens off the front. -/
def Steady (m : ParseM α) : Prop :=
  ∀ ls, Consumes m ls fun _ _ _ => True

/-- Whatever the operation is at, it takes at least one token. -/
def Moves (m : ParseM α) : Prop :=
  ∀ ls, Consumes m ls fun tokens _ _ => tokens ≠ []

/-- Progress is more than no going back. -/
theorem Moves.steady {m : ParseM α} (hm : Moves m) : Steady m :=
  fun ls => (hm ls).weaken fun _ _ _ _ => trivial

theorem steady_pure (a : α) : Steady (pure a) :=
  fun _ => consumes_pure trivial

/-- What two operations take, one after the other, is off the front. -/
theorem Steady.bind {m : ParseM α} {f : α → ParseM β} (hm : Steady m) (hf : ∀ a, Steady (f a)) :
    Steady (m >>= f) :=
  fun ls => (hm ls).bind fun _ rest a _ _ => hf a rest

/-- What follows a token that was taken does not matter for progress. -/
theorem Steady.after {m : ParseM α} (hm : Steady m) (token : Token) (ls : List Lexeme) :
    Consumes m ls fun others _ _ => token :: others ≠ [] :=
  (hm ls).weaken fun _ _ _ _ => List.cons_ne_nil _ _

/-- Progress in the first of two operations is progress. -/
theorem Moves.bind {m : ParseM α} {f : α → ParseM β} (hm : Moves m) (hf : ∀ a, Steady (f a)) :
    Moves (m >>= f) :=
  fun ls => (hm ls).bind fun _ rest a _ htokens =>
    (hf a rest).weaken fun _ _ _ _ => by simp [htokens]

theorem Steady.ite {c : Prop} [Decidable c] {m m' : ParseM α} (hm : Steady m) (hm' : Steady m') :
    Steady (if c then m else m') :=
  fun ls => Consumes.ite (fun _ => hm ls) fun _ => hm' ls

theorem Steady.map {m : ParseM α} (f : α → β) (hm : Steady m) : Steady (f <$> m) :=
  fun ls => Consumes.map (hm ls)

theorem Moves.map {m : ParseM α} (f : α → β) (hm : Moves m) : Moves (f <$> m) :=
  fun ls => Consumes.map (hm ls)

/-! ### Tokens

The operations that look at single tokens, and the loops over them. -/

theorem steady_peek : Steady peek := fun ls => by
  rw [← bind_pure peek]
  exact consumes_of_cons fun _ _ hls => hls ▸ consumes_peek (consumes_pure trivial)

theorem steady_check (wanted : TokenKind) : Steady (check wanted) :=
  steady_peek.bind fun _ => steady_pure _

/-- A token that is asked for is taken, or there is an error. -/
theorem moves_expect {wanted : TokenKind} (h : isPlain wanted) : Moves (expect wanted) :=
  fun ls => by
    rw [← bind_pure (expect wanted)]
    exact consumes_expect h fun _ _ _ _ => consumes_pure (by simp)

/-- A name that is asked for is taken, or there is an error. -/
theorem moves_expectName (wanted : Wanted) : Moves (expectName wanted) := fun ls => by
  rw [← bind_pure (expectName wanted)]
  exact consumes_expectName fun _ _ _ _ _ => consumes_pure (by simp)

/-- What is accepted is taken, and where nothing is accepted a token may stay. -/
theorem consumes_accept_iff {wanted : TokenKind} (h : isPlain wanted) (ls : List Lexeme) :
    Consumes (accept wanted) ls fun tokens _ found => found = true → tokens ≠ [] := by
  rw [← bind_pure (accept wanted)]
  exact consumes_accept h (fun _ _ _ _ => consumes_pure (by simp)) fun _ _ _ _ =>
    consumes_pure (by simp)

/-- A token that may stand there is taken if it does. -/
theorem steady_accept {wanted : TokenKind} (h : isPlain wanted) : Steady (accept wanted) :=
  fun ls => (consumes_accept_iff h ls).weaken fun _ _ _ _ => trivial

/-- A list goes on unless it is at its end. -/
theorem consumes_notAt (close : TokenKind) (ls : List Lexeme) :
    Consumes (notAt close) ls fun _ rest more => more = false →
      ∃ token others, rest = .ok token :: others ∧
        (token.kind = close ∨ token.kind = .endOfInput) := by
  refine consumes_of_cons fun token others hls => ?_
  subst hls
  refine consumes_peek (consumes_pure fun hmore => ⟨token, others, rfl, ?_⟩)
  by_cases hclose : token.kind = close
  · exact .inl hclose
  · exact .inr (by simpa [hclose] using hmore)

/-- To ask for the end of a list takes no tokens. -/
theorem steady_notAt (close : TokenKind) : Steady (notAt close) :=
  fun ls => (consumes_notAt close ls).weaken fun _ _ _ _ => trivial

/-- Items that make progress can be repeated: the loop is given as many rounds as there are
lexemes. -/
theorem steady_many {more : ParseM Bool} {item : ParseM α} (hmore : Steady more)
    (hitem : Moves item) : Steady (many more item) :=
  consumes_many hmore hitem (fun _ hothers => by simp [hothers]) (fun _ => trivial)
    fun _ _ _ => trivial

/-- A list takes its items and the commas between them. -/
theorem steady_commaSeparated {item : ParseM α} (hitem : Steady item) :
    Steady (commaSeparated item) :=
  consumes_commaSeparated hitem (fun _ => trivial) fun _ _ _ => trivial

/-- The comma before an element is taken, the bracket that ends the tuple is not. -/
theorem steady_anotherElement : Steady anotherElement :=
  fun _ => consumes_anotherElement.weaken fun _ _ _ _ => trivial

/-- Any number of semicolons may follow a statement, none among them. -/
theorem steady_skipSemicolons : Steady skipSemicolons := by
  refine Steady.bind (fun ls => ?_) fun _ => steady_pure _
  exact consumes_many (consumes_accept_iff rfl) (steady_pure ())
    (fun hmore _ => by simp [hmore rfl]) (fun _ => trivial) (fun _ _ _ => trivial) ls

/-! ### Types and expressions

Types by their fuel, expressions by their grammar. -/

/-- An annotation begins with a name or a bracket, and either is taken. -/
theorem moves_typeNameUpTo (n : Nat) : Moves (typeNameUpTo n) := by
  induction n with
  | zero => exact fun _ => consumes_unexpected
  | succ n ih =>
    intro ls
    refine consumes_of_cons fun token more hls => ?_
    subst hls
    rw [typeNameUpTo]
    refine consumes_peek ?_
    split
    · rename_i name hkind
      exact consumes_advance (by rw [hkind]; rfl) (consumes_pure (by simp))
    · rename_i hkind
      refine consumes_advance (by rw [hkind]; rfl) (Steady.after ?_ token more)
      exact ih.steady.bind fun _ => (moves_expect rfl).steady.bind fun _ => steady_pure _
    · rename_i hkind
      refine consumes_advance (by rw [hkind]; rfl) (Steady.after ?_ token more)
      refine ih.steady.bind fun _ => (steady_check _).bind fun _ => Steady.ite ?_ ?_
      · exact (steady_many steady_anotherElement ih).bind fun _ =>
          (moves_expect rfl).steady.bind fun _ => steady_pure _
      · exact (moves_expect rfl).steady.bind fun _ => steady_pure _
    · exact consumes_unexpected

theorem moves_typeName : Moves typeName :=
  fun ls => consumes_rounds fun n _ => moves_typeNameUpTo n ls

theorem moves_field (wanted : Wanted) : Moves (field wanted) :=
  (moves_expectName wanted).bind fun _ => (moves_expect rfl).steady.bind fun _ =>
    moves_typeName.steady.bind fun _ => steady_pure _

/-- No expression is empty (`Derives.ne_nil`), so the grammar gives progress at once. -/
theorem moves_expression (levels precedence : Nat) : Moves (expression levels precedence) :=
  fun ls => (consumes_expression levels precedence ls).weaken fun _ _ _ ⟨_, he, _⟩ hnil =>
    he.ne_nil (by rw [hnil]; rfl)

theorem steady_value (levels : Nat) : Steady (some <$> expression levels lowest) :=
  (moves_expression levels lowest).steady.map some

/-! ### Statements

Each statement makes progress if those nested in it do. -/

/-- The parsers of a nesting level take at least one token each. -/
structure LevelMoves (level : Level) : Prop where
  statement : Moves level.statement
  conditional : Moves level.conditional

variable {inner : Option Level} {levels : Nat}

/-- Going down a level of nesting takes no tokens. -/
theorem steady_descend {f : Level → ParseM β} (hf : ∀ level ∈ inner, Steady (f level)) :
    Steady (descend inner >>= f) := by
  cases inner with
  | none =>
    intro ls
    have hfail : Consumes (fail .tooDeep : ParseM Level) ls fun _ _ _ => False := consumes_fail
    exact hfail.bind fun _ _ _ _ h => h.elim
  | some level =>
    rw [descend, pure_bind]
    exact hf level rfl

theorem moves_block (hinner : ∀ level ∈ inner, LevelMoves level) : Moves (block inner) := by
  refine (moves_expect rfl).bind fun _ => steady_descend fun level hlevel => ?_
  refine steady_skipSemicolons.bind fun _ => ?_
  refine (steady_many (steady_notAt _) (hinner level hlevel).statement).bind fun _ => ?_
  exact (moves_expect rfl).steady.bind fun _ => steady_pure _

/-- After the keyword, a function begins with its name. -/
theorem moves_function (hinner : ∀ level ∈ inner, LevelMoves level) (exported : Bool) :
    Moves (function inner exported) := by
  have hbody (token : Token) (header : FunctionHeader) :
      Steady (do return Stmt.function token.location header (← block inner)) :=
    (moves_block hinner).steady.bind fun _ => steady_pure _
  refine (moves_expect rfl).bind fun token => (moves_expectName _).steady.bind fun name => ?_
  have hrest (params : List Field) : Steady (do
      let _ ← expect .rparen
      let returnType ← if ← accept .arrow then some <$> typeName else pure none
      let body ← block inner
      return Stmt.function token.location ⟨name.1, params, returnType, exported⟩ body) := by
    refine (moves_expect rfl).steady.bind fun _ => (steady_accept rfl).bind fun _ =>
      Steady.ite ?_ ?_
    · exact (moves_typeName.steady.map some).bind fun _ => hbody token _
    · exact (steady_pure none).bind fun _ => hbody token _
  refine (moves_expect rfl).steady.bind fun _ => (steady_check _).bind fun _ => Steady.ite ?_ ?_
  · exact (steady_pure []).bind hrest
  · exact (steady_commaSeparated (moves_field .parameterName).steady).bind hrest

/-- The word `export` and the function behind it. -/
theorem moves_exportedFunction (hinner : ∀ level ∈ inner, LevelMoves level) :
    Moves (exportedFunction inner) :=
  (moves_expect rfl).bind fun _ => (steady_check _).bind fun _ =>
    Steady.ite (moves_function hinner true).steady fun _ => consumes_unexpected

/-- A field of a struct takes tokens whether or not a comma follows it. -/
theorem moves_structField : Moves (do
    let f ← field .fieldName
    let _ ← accept .comma
    return f) :=
  (moves_field _).bind fun _ => (steady_accept rfl).bind fun _ => steady_pure _

theorem moves_structDecl : Moves structDecl := by
  have hfields := steady_many (steady_notAt .rbrace) moves_structField
  refine (moves_expect rfl).bind fun _ => (moves_expectName _).steady.bind fun _ => ?_
  refine (moves_expect rfl).steady.bind fun _ => hfields.bind fun _ => ?_
  exact (moves_expect rfl).steady.bind fun _ => steady_pure _

theorem moves_returnStmt : Moves (returnStmt levels) := by
  refine (moves_expect rfl).bind fun _ => steady_peek.bind fun _ => Steady.ite ?_ ?_
  · exact (steady_pure none).bind fun _ => steady_pure _
  · exact (steady_value levels).bind fun _ => steady_pure _

theorem moves_binding : Moves binding := by
  refine (moves_expectName _).bind fun _ => (steady_accept rfl).bind fun _ => Steady.ite ?_ ?_
  · exact (moves_typeName.steady.map some).bind fun _ => steady_pure _
  · exact (steady_pure none).bind fun _ => steady_pure _

/-- A declaration takes its keyword without a look at it. -/
theorem consumes_declaration {token : Token} {more : List Lexeme} (h : isPlain token.kind) :
    Consumes (declaration levels) (.ok token :: more) fun tokens _ _ => tokens ≠ [] := by
  refine consumes_advance h (Steady.after ?_ token more)
  refine (steady_commaSeparated moves_binding.steady).bind fun _ => ?_
  refine (steady_accept rfl).bind fun _ => Steady.ite ?_ ?_
  · exact (steady_value levels).bind fun _ => steady_pure _
  · exact (steady_pure none).bind fun _ => steady_pure _

/-- There may be no `else`, and then no token is taken. -/
theorem steady_alternate (hinner : ∀ level ∈ inner, LevelMoves level) :
    Steady (alternate inner) := by
  refine steady_peek.bind fun _ => Steady.ite ?_ ?_
  · exact steady_descend fun level hlevel => (hinner level hlevel).conditional.steady
  · exact (moves_block hinner).steady.bind fun _ => steady_pure _

theorem moves_conditional (hinner : ∀ level ∈ inner, LevelMoves level) :
    Moves (conditional levels inner) := by
  refine (moves_expect rfl).bind fun _ => (moves_expression levels lowest).steady.bind fun _ => ?_
  refine (moves_block hinner).steady.bind fun _ => (steady_accept rfl).bind fun _ =>
    Steady.ite ?_ ?_
  · exact ((steady_alternate hinner).map some).bind fun _ => steady_pure _
  · exact (steady_pure none).bind fun _ => steady_pure _

theorem moves_whileLoop (hinner : ∀ level ∈ inner, LevelMoves level) :
    Moves (whileLoop levels inner) :=
  (moves_expect rfl).bind fun _ => (moves_expression levels lowest).steady.bind fun _ =>
    (moves_block hinner).steady.bind fun _ => steady_pure _

theorem moves_printStmt : Moves (printStmt levels) :=
  (moves_expect rfl).bind fun _ => (moves_expression levels lowest).steady.bind fun _ =>
    steady_pure _

theorem moves_assignmentOrExpression : Moves (assignmentOrExpression levels) := by
  intro ls
  refine (steady_peek ls).bind fun _ rest start _ _ => ?_
  -- an expression comes first in any case, and takes a token
  refine (moves_expression levels lowest rest).bind fun tokens rest' target _ htokens => ?_
  refine consumes_of_cons fun token more hrest => ?_
  subst hrest
  refine consumes_check (Consumes.ite (fun hassign => ?_) fun _ => ?_)
  · have hvalue : Consumes (do
        let _ ← advance
        let value ← expression levels lowest
        return Stmt.assign start.location target value) (.ok token :: more) fun _ _ _ => True := by
      have hkind : token.kind = .assign := by simpa using hassign
      refine consumes_advance (by rw [hkind]; rfl) ?_
      exact ((moves_expression levels lowest).steady.bind fun _ => steady_pure _) more
    refine Consumes.weaken (Q := fun _ _ _ => True) (Consumes.ite (fun _ => ?_) fun _ => ?_)
      fun _ _ _ _ => by simp [htokens]
    · exact hvalue
    · -- a target that cannot be assigned to ends the parser
      have hthrow {e : ParseError} : Consumes (throw e : ParseM PUnit) (.ok token :: more)
          fun _ _ _ => False := consumes_throw
      exact hthrow.bind fun _ _ _ _ h => h.elim
  · exact consumes_pure (by simp [htokens])

/-- One case for each keyword; in the cases that take the keyword without a look the rest is
steady. -/
theorem moves_statement (hinner : ∀ level ∈ inner, LevelMoves level) :
    Moves (statement levels inner) := by
  intro ls
  refine consumes_of_cons fun token more hls => ?_
  subst hls
  -- what moved before the semicolons are skipped has moved after that
  have hskip {m : ParseM Stmt}
      (hm : Consumes m (.ok token :: more) fun tokens _ _ => tokens ≠ []) :
      Consumes (do let s ← m; skipSemicolons; return s) (.ok token :: more)
        fun tokens _ _ => tokens ≠ [] :=
    hm.bind fun _ rest _ _ htokens =>
      ((steady_skipSemicolons.bind fun _ => steady_pure _) rest).weaken fun _ _ _ _ => by
        simp [htokens]
  refine consumes_peek ?_
  dsimp only
  split
  · exact hskip (moves_exportedFunction hinner _)
  · exact hskip (moves_function hinner false _)
  · exact hskip (moves_returnStmt _)
  · rename_i hkind
    exact hskip (consumes_declaration (by rw [hkind]; rfl))
  · rename_i hkind
    exact hskip (consumes_declaration (by rw [hkind]; rfl))
  · exact hskip (moves_conditional hinner _)
  · exact hskip (moves_whileLoop hinner _)
  · exact hskip (moves_printStmt _)
  · exact hskip (moves_structDecl _)
  · exact hskip ((moves_block hinner).map _ _)
  · exact hskip (moves_assignmentOrExpression _)

/-- By induction on the levels: nested statements are parsed at the level below. -/
theorem levelMoves (n : Nat) : LevelMoves (level n) := by
  induction n with
  | zero =>
    have hinner : ∀ level ∈ (none : Option Level), LevelMoves level := by simp
    exact ⟨moves_statement hinner, moves_conditional hinner⟩
  | succ n ih =>
    have hinner : ∀ l ∈ some (level n), LevelMoves l := by simpa using ih
    exact ⟨moves_statement hinner, moves_conditional hinner⟩

/-! ### Whole texts

From a loop that makes progress to all tokens of a text. -/

/-- Nothing stands behind the end of the input. -/
theorem IsScan.eq_singleton {token : Token} {others : List Lexeme}
    (h : IsScan (.ok token :: others)) (htoken : token.kind = .endOfInput) : others = [] := by
  cases h with
  | last => rfl
  | cons hlast => simp [Cursor.isLast, htoken] at hlast

/-- A program takes all tokens up to the end of the text. -/
theorem consumes_program (ls : List Lexeme) : Consumes program ls fun _ rest _ =>
    ∃ token others, rest = .ok token :: others ∧ token.kind = .endOfInput := by
  refine (steady_skipSemicolons ls).bind fun _ rest _ _ _ => ?_
  have hstatements := consumes_many (Q := fun tokens _ _ => tokens ≠ [])
    (R := fun _ rest _ => ∃ token others, rest = .ok token :: others ∧ token.kind = .endOfInput)
    (consumes_notAt .endOfInput) (levelMoves maxNesting).statement
    (fun _ htokens => by simp [htokens]) (fun hend => by simpa using hend rfl)
    (fun _ _ hrest => hrest)
  exact (hstatements rest).bind fun _ _ _ _ hend => consumes_pure hend

end Parse

/-- A text that is parsed can be read, and exactly the strings among its tokens have been put into
the pool, in order. -/
theorem tokenize_of_parseProgram {source : String} {pool pool' : StringPool} {program : Program}
    (h : parseProgram source pool = (.ok program, pool')) :
    ∃ tokens, tokenize source = .ok tokens ∧
      pool.internAll? (texts (tokens.map (·.kind))) = some pool' := by
  obtain ⟨p, p', hstart, hrun, rfl⟩ := Parse.parseProgram_eq_ok_iff.mp h
  obtain ⟨hp, rfl⟩ := Parse.at_of_start hstart
  obtain ⟨tokens, rest, hlexemes, hp', hstrings, last, others, rfl, hlast⟩ :=
    Parse.consumes_program _ p p' _ hp hrun
  obtain rfl := Parse.IsScan.eq_singleton hp'.isScan hlast
  refine ⟨tokens ++ [last], tokenize_of_lexemes hlexemes, ?_⟩
  -- the end of the text has no text of its own
  have htexts : texts ((tokens ++ [last]).map (·.kind)) = texts (tokens.map (·.kind)) := by
    simp [texts, hlast, TokenKind.text?]
  rw [htexts]
  exact hstrings

end WasmCompiler
