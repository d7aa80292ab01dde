import WasmCompiler.Proofs.Tree.Climbing
import WasmCompiler.Proofs.Tree.Lexing

/-!
# Parsing undoes writing

A statement is known by its first token, and the semicolon after it ends the expression, the type
or the chain of conditions that it may end with. So each statement of a list is read up to its own
semicolon (`IsReadStmt`), and a program is read back from its text but for the places of its parts
(`parseProgram_render`).

Blocks and conditions take one level of nesting each and at least one token, so as for expressions
no program with at most as many tokens as there are levels is too deep.

There is one lemma for each form of statement (`isReadStmt_block`, `isReadStmt_declare` and so on);
`isReadStmt_of_isWritable` is the induction over the tree that puts them together, and
`reads_program` the loop at the top level.
-/

namespace WasmCompiler

open TokenKind (commas braced announced)

/-! ### First tokens

How a list of statements tells that another one follows. -/

/-- Whether a list of statements goes on at a token. -/
def TokenKind.beginsStatement : TokenKind → Bool
  | .semicolon | .rbrace | .endOfInput => false
  | _ => true

theorem TokenKind.beginsStatement_of_beginsExpression {kind : TokenKind}
    (h : kind.beginsExpression) : kind.beginsStatement := by
  cases kind <;> first | rfl | cases h

/-- A statement is not empty, and the list goes on at its first token. -/
theorem Stmt.exists_kinds_eq_cons (s : Stmt) :
    ∃ first others, s.kinds = first :: others ∧ first.beginsStatement := by
  have hexpr (e : Expr) (rest : List TokenKind) :
      ∃ first others, e.kinds ++ rest = first :: others ∧ first.beginsStatement := by
    obtain ⟨first, others, hkinds, hfirst⟩ := e.beginsExpression_kinds.append rest
    exact ⟨first, others, hkinds, TokenKind.beginsStatement_of_beginsExpression hfirst⟩
  cases s with
  | declare _ mutable _ _ => exact ⟨_, _, rfl, by cases mutable <;> rfl⟩
  | function _ header body =>
    rw [Stmt.kinds, FunctionHeader.kinds]
    cases header.exported <;> exact ⟨_, _, rfl, rfl⟩
  | ret _ value => cases value <;> exact ⟨_, _, rfl, rfl⟩
  | assign _ target value => exact hexpr target _
  | conditional _ _ _ alternate => cases alternate <;> exact ⟨_, _, rfl, rfl⟩
  | expression _ value => simpa [Stmt.kinds] using hexpr value []
  | struct | whileLoop | print | block => exact ⟨_, _, rfl, rfl⟩

/-- The two forms of a conditional, with `else` and without, as one. -/
theorem Stmt.kinds_conditional (location : Location) (condition : Expr) (body : List Stmt)
    (alternate : Option Stmt) :
    (Stmt.conditional location condition body alternate).kinds =
      .kwIf :: (condition.kinds ++ (braced (Stmt.kindsAll body) ++
        announced .kwElse Stmt.kinds alternate)) := by
  cases alternate <;> simp [Stmt.kinds, announced]

/-- The two forms of a conditional without places, as one. -/
theorem Stmt.unlocated_conditional (location : Location) (condition : Expr) (body : List Stmt)
    (alternate : Option Stmt) :
    (Stmt.conditional location condition body alternate).unlocated =
      .conditional default condition.unlocated (Stmt.unlocatedAll body)
        (alternate.map Stmt.unlocated) := by
  cases alternate <;> rfl

/-- Each statement is followed by a semicolon. -/
theorem Stmt.kindsAll_eq_flatMap (ss : List Stmt) :
    Stmt.kindsAll ss = ss.flatMap fun s => s.kinds ++ [TokenKind.semicolon] := by
  induction ss with
  | nil => rfl
  | cons s ss ih => simp [Stmt.kindsAll, ih]

/-- A statement has fewer tokens than the block around it. -/
theorem Stmt.length_kinds_lt {s : Stmt} {ss : List Stmt} (h : s ∈ ss) :
    s.kinds.length < (Stmt.kindsAll ss).length := by
  have hmem := List.mem_map_of_mem (f := fun s => Stmt.kinds s ++ [.semicolon]) h
  have hle := (List.sublist_flatten_of_mem hmem).length_le
  rw [← List.flatMap_def, ← Stmt.kindsAll_eq_flatMap, List.length_append] at hle
  exact hle

namespace Parse

variable {deep : Prop} {next : TokenKind} {rest : List TokenKind}

/-! ### Semicolons

Any number of them may stand between statements, and one is written. -/

/-- Where there is no semicolon none is skipped. -/
theorem reads_skipSemicolons_none (h : next ≠ .semicolon) :
    Reads deep skipSemicolons (next :: rest) (fun _ => True) (next :: rest) :=
  (takes_skipSemicolons h).reads rfl

/-- The one semicolon that is written after a statement is skipped. -/
theorem reads_skipSemicolons (h : next ≠ .semicolon) :
    Reads deep skipSemicolons (.semicolon :: next :: rest) (fun _ => True) (next :: rest) := by
  have hmore : ∀ u ∈ [()], ∀ rest, rest ≠ [] →
      Reads deep (accept .semicolon) ([TokenKind.semicolon] ++ rest) (· = true) ([] ++ rest) :=
    fun _ _ _ hrest => reads_accept rfl hrest
  have hmany : Reads deep (many (accept .semicolon) (pure ()))
      ([()].flatMap (fun _ => [.semicolon]) ++ next :: rest) (·.map id = [()].map id)
      (next :: rest) :=
    Reads.many (· ≠ []) (by simp) (by simp) hmore (fun _ _ _ _ => reads_pure rfl)
      (reads_accept_other h) (by simp) (by simp)
  exact hmany.bind fun _ _ => reads_pure trivial

/-- A list goes on unless its end or the end of the text is reached. -/
theorem reads_notAt (close : TokenKind) :
    Reads deep (notAt close) (next :: rest) (· = decide (next ≠ close ∧ next ≠ .endOfInput))
      (next :: rest) :=
  (takes_notAt close).reads rfl

/-! ### Levels

The parsers are given by recursion on the levels. -/

/-- The parsers one level further down. -/
def deeper : Nat → Option Level
  | 0 => none
  | n + 1 => some (level n)

/-- The parsers of a level call those of the level below. -/
theorem level_eq (n : Nat) :
    level n = ⟨statement n (deeper n), conditional n (deeper n)⟩ := by
  cases n <;> rfl

/-- Going down fails only if no level is left. -/
theorem Reads.descend {β : Type} {R : β → Prop} {f : Level → ParseM β}
    {before after : List TokenKind} {levels : Nat} (hdeep : levels = 0 → deep)
    (hf : ∀ n, levels = n + 1 → Reads deep (f (level n)) before R after) :
    Reads deep (descend (deeper levels) >>= f) before R after := by
  cases levels with
  | zero =>
    have hfail : Reads deep (fail .tooDeep : ParseM Level) before (fun _ => False) before :=
      reads_tooDeep (hdeep rfl)
    exact hfail.bind fun _ h => h.elim
  | succ n => exact hf n rfl

/-! ### Statements and blocks

A list of statements, read up to a token that begins none. -/

/-- The parser for statements that begin at a place and have the form of this one. -/
def parserOf (location : Location) (levels : Nat) : Stmt → ParseM Stmt
  | .declare .. => declaration levels
  | .function _ header _ =>
    if header.exported then exportedFunction (deeper levels) else function (deeper levels) false
  | .struct .. => structDecl
  | .ret .. => returnStmt levels
  | .assign .. | .expression .. => assignmentOrExpression levels
  | .conditional .. => conditional levels (deeper levels)
  | .whileLoop .. => whileLoop levels (deeper levels)
  | .print .. => printStmt levels
  | .block .. => Stmt.block location <$> block (deeper levels)

/-- With a number of levels left a statement is read from its tokens up to the semicolon after
it. -/
def IsReadStmtAt (deep : Prop) (levels : Nat) (s : Stmt) : Prop :=
  ∀ location rest, Reads deep (parserOf location levels s) (s.kinds ++ .semicolon :: rest)
    (·.unlocated = s.unlocated) (.semicolon :: rest)

/-- As many levels are enough for a statement as it has tokens. -/
def IsReadStmt (deep : Prop) (s : Stmt) : Prop :=
  ∀ levels, (levels < s.kinds.length → deep) → IsReadStmtAt deep levels s

/-- The first token tells which parser reads a statement. -/
theorem IsReadStmtAt.statement {s : Stmt} {levels : Nat} (h : IsReadStmtAt deep levels s)
    (hnext : next ≠ .semicolon) :
    Reads deep (level levels).statement (s.kinds ++ .semicolon :: next :: rest)
      (·.unlocated = s.unlocated) (next :: rest) := by
  have hread (location : Location) := h location (next :: rest)
  have hskip (stmt : Stmt) (hstmt : stmt.unlocated = s.unlocated) :
      Reads deep (do skipSemicolons; return stmt) (.semicolon :: next :: rest)
        (·.unlocated = s.unlocated) (next :: rest) :=
    (reads_skipSemicolons hnext).bind fun _ _ => reads_pure hstmt
  rw [level_eq]
  show Reads deep (Parse.statement levels (deeper levels)) _ _ _
  -- an expression begins with none of the words that begin other statements
  have hexpr (e : Expr) (others : List TokenKind)
      (he : Reads deep (assignmentOrExpression levels) (e.kinds ++ others)
        (·.unlocated = s.unlocated) (.semicolon :: next :: rest)) :
      Reads deep (Parse.statement levels (deeper levels)) (e.kinds ++ others)
        (·.unlocated = s.unlocated) (next :: rest) := by
    obtain ⟨first, others', hkinds, hfirst⟩ := e.beginsExpression_kinds.append others
    rw [hkinds] at he ⊢
    refine reads_peek.bind fun token htoken => ?_
    rw [htoken]
    cases first with
    | integer | float | string | identifier | minus | bang | lparen | lbracket =>
      exact he.bind hskip
    | _ => cases hfirst
  cases s with
  | declare _ mutable _ _ =>
    cases mutable with
    | true | false =>
      refine reads_peek.bind fun token htoken => ?_
      rw [htoken]
      exact (hread token.location).bind hskip
  | function _ header _ =>
    obtain ⟨name, params, returnType, exported⟩ := header
    cases exported with
    | true | false =>
      refine reads_peek.bind fun token htoken => ?_
      rw [htoken]
      exact (hread token.location).bind hskip
  | struct | whileLoop | print | block =>
    refine reads_peek.bind fun token htoken => ?_
    rw [htoken]
    exact (hread token.location).bind hskip
  | ret _ value =>
    cases value with
    | none | some =>
      refine reads_peek.bind fun token htoken => ?_
      rw [htoken]
      exact (hread token.location).bind hskip
  | conditional _ _ _ alternate =>
    cases alternate with
    | none | some =>
      refine reads_peek.bind fun token htoken => ?_
      rw [htoken]
      exact (hread token.location).bind hskip
  | assign _ target value =>
    have htarget := hread default
    rw [Stmt.kinds, List.append_assoc] at htarget ⊢
    exact hexpr target _ htarget
  | expression _ value => exact hexpr value _ (hread default)

/-- What follows a statement and its semicolon: something that is no other semicolon. -/
def FollowsSemicolon (rest : List TokenKind) : Prop :=
  ∃ next others, rest = next :: others ∧ next ≠ .semicolon

/-- Statements up to a token that begins none. -/
theorem reads_statements {ss : List Stmt} {close : TokenKind} {levels : Nat}
    (h : ∀ s ∈ ss, IsReadStmtAt deep levels s)
    (hclose : close = .rbrace ∨ close = .endOfInput) :
    Reads deep (many (notAt close) (level levels).statement)
      (Stmt.kindsAll ss ++ close :: rest) (Stmt.unlocatedAll · = Stmt.unlocatedAll ss)
      (close :: rest) := by
  have hbegins (s : Stmt) (rest : List TokenKind) : ∃ first others,
      s.kinds ++ [TokenKind.semicolon] ++ rest = first :: others ∧ first.beginsStatement := by
    obtain ⟨first, others, hkinds, hfirst⟩ := s.exists_kinds_eq_cons
    exact ⟨first, others ++ [TokenKind.semicolon] ++ rest, by simp [hkinds], hfirst⟩
  have hends : close.beginsStatement = false ∧ close ≠ .semicolon := by
    rcases hclose with rfl | rfl <;> decide
  -- the semicolons after a statement are skipped up to the next one, which begins with none
  have hfront : ∀ s ∈ ss, ∀ rest, FollowsSemicolon (s.kinds ++ [TokenKind.semicolon] ++ rest) := by
    intro s _ rest
    obtain ⟨first, others, hkinds, hfirst⟩ := hbegins s rest
    exact ⟨first, others, hkinds, by rintro rfl; cases hfirst⟩
  -- a statement begins neither with the token that closes the list nor with the end of the text
  have hmore : ∀ s ∈ ss, ∀ rest, FollowsSemicolon rest →
      Reads deep (notAt close) (s.kinds ++ [TokenKind.semicolon] ++ rest) (· = true)
        (s.kinds ++ [TokenKind.semicolon] ++ rest) := by
    intro s _ rest _
    obtain ⟨first, others, hkinds, hfirst⟩ := hbegins s rest
    have hopen : first ≠ close := by
      rintro rfl
      rw [hends.1] at hfirst
      cases hfirst
    have hinput : first ≠ .endOfInput := by
      rintro rfl
      cases hfirst
    rw [hkinds]
    exact (reads_notAt close).weaken fun _ hmore => by rw [hmore, decide_eq_true ⟨hopen, hinput⟩]
  have hitem : ∀ s ∈ ss, ∀ rest, FollowsSemicolon rest →
      Reads deep (level levels).statement (s.kinds ++ [TokenKind.semicolon] ++ rest)
        (·.unlocated = s.unlocated) rest := by
    rintro s hs _ ⟨next, others, rfl, hnext⟩
    rw [List.append_assoc, List.singleton_append]
    exact (h s hs).statement hnext
  have hdone : Reads deep (notAt close) (close :: rest) (· = false) (close :: rest) :=
    (reads_notAt close).weaken fun _ hmore => by rw [hmore]; simp
  rw [Stmt.kindsAll_eq_flatMap]
  refine (Reads.many FollowsSemicolon hfront ⟨close, rest, rfl, hends.2⟩ hmore hitem hdone
    (by simp) (by simp)).weaken fun ss' hss' => ?_
  rw [Stmt.unlocatedAll_eq_map, Stmt.unlocatedAll_eq_map, hss']

/-- As many levels are enough for each of some statements as they have tokens together. -/
theorem isReadStmtAt_of_mem {ss : List Stmt} {levels : Nat} (h : ∀ s ∈ ss, IsReadStmt deep s)
    (hshort : levels < (Stmt.kindsAll ss).length → deep) :
    ∀ s ∈ ss, IsReadStmtAt deep levels s := by
  intro s hs
  have hlength := Stmt.length_kinds_lt hs
  exact h s hs levels fun hn => hshort (by omega)

/-- A list of statements does not begin with a semicolon. -/
theorem reads_skipSemicolons_kindsAll {ss : List Stmt} {close : TokenKind}
    (hclose : close = .rbrace ∨ close = .endOfInput) :
    Reads deep skipSemicolons (Stmt.kindsAll ss ++ close :: rest) (fun _ => True)
      (Stmt.kindsAll ss ++ close :: rest) := by
  cases ss with
  | nil => exact reads_skipSemicolons_none (by rcases hclose with rfl | rfl <;> decide)
  | cons s ss =>
    obtain ⟨first, others, hkinds, hfirst⟩ := s.exists_kinds_eq_cons
    rw [Stmt.kindsAll, hkinds, List.cons_append, List.cons_append]
    exact reads_skipSemicolons_none (by rintro rfl; cases hfirst)

/-- One level for the braces, and then the statements up to the closing one. -/
theorem reads_block {body : List Stmt} {levels : Nat} (h : ∀ s ∈ body, IsReadStmt deep s)
    (hshort : levels ≤ (Stmt.kindsAll body).length → deep) (hrest : rest ≠ []) :
    Reads deep (block (deeper levels)) (braced (Stmt.kindsAll body) ++ rest)
      (Stmt.unlocatedAll · = Stmt.unlocatedAll body) rest := by
  rw [braced, List.cons_append, List.append_assoc, List.singleton_append]
  refine (reads_expect rfl (by simp)).bind fun _ _ => ?_
  refine Reads.descend (fun hzero => hshort (by omega)) fun n hn => ?_
  refine (reads_skipSemicolons_kindsAll (.inl rfl)).bind fun _ _ => ?_
  have hbody : ∀ s ∈ body, IsReadStmtAt deep n s :=
    isReadStmtAt_of_mem h fun hn' => hshort (by omega)
  refine (reads_statements hbody (.inl rfl)).bind fun body' hbody' => ?_
  exact (reads_expect rfl hrest).bind fun _ _ => reads_pure hbody'

theorem isReadStmt_block {location : Location} {body : List Stmt}
    (h : ∀ s ∈ body, IsReadStmt deep s) : IsReadStmt deep (.block location body) := by
  intro levels hshort _ rest
  rw [Stmt.kinds, braced, List.length_cons, List.length_append] at hshort
  refine (reads_block h (fun hn => hshort (by omega)) (by simp)).map fun body' hbody' => ?_
  rw [Stmt.unlocated, Stmt.unlocated, hbody']

/-! ### Declarations

Names, structs and functions. -/

/-- Only the value of a declaration needs levels. -/
theorem isReadStmtAt_declare {location : Location} {mutable : Bool} {bindings : List Binding}
    {value : Option Expr} {levels : Nat} (hne : bindings ≠ [])
    (hbindings : ∀ b ∈ bindings, b.isWritable) (hvalue : ∀ e ∈ value, IsRead deep e)
    (hshort : ∀ e ∈ value, levels < e.kinds.length → deep) :
    IsReadStmtAt deep levels (.declare location mutable bindings value) := by
  intro _ rest
  -- the bindings end at the sign of assignment or, without a value, at the semicolon
  obtain ⟨close, others, hclose, hcomma, hcolon⟩ : ∃ close others,
      announced .assign Expr.kinds value ++ .semicolon :: rest = close :: others ∧
        close ≠ .comma ∧ close ≠ .colon := by
    cases value <;> exact ⟨_, _, rfl, by decide, by decide⟩
  have hlist : Reads deep (commaSeparated binding)
      (commas (bindings.map Binding.kinds) ++
        (announced .assign Expr.kinds value ++ .semicolon :: rest))
      (·.map Binding.unlocated = bindings.map Binding.unlocated)
      (announced .assign Expr.kinds value ++ .semicolon :: rest) := by
    rw [hclose]
    refine Reads.commaSeparated hcomma hne (by simp [Binding.kinds]) fun b hb rest hrest => ?_
    obtain ⟨next, rest, rfl⟩ := List.exists_cons_of_ne_nil hrest.ne_nil
    refine reads_binding (hbindings b hb) ?_
    rcases hrest with hnext | hnext
    · rw [Option.some.inj hnext]
      decide
    · rwa [Option.some.inj hnext]
  have hword : (if mutable then TokenKind.kwVar else .kwLet).text? = none := by
    cases mutable <;> rfl
  rw [Stmt.kinds, List.cons_append, List.append_assoc]
  refine (reads_advance hword (by simp)).bind fun token htoken => ?_
  refine hlist.bind fun bindings' hbindings' => ?_
  refine Reads.announced Expr.unlocated rfl (by decide)
    (fun e he => (hvalue e he).reads .semicolon rfl (hshort e he))
    fun value' hvalue' => reads_pure ?_
  have hmutable : decide (token.kind = .kwVar) = mutable := by
    rw [htoken]
    cases mutable <;> rfl
  rw [Stmt.unlocated, Stmt.unlocated, hmutable, hbindings', hvalue']

/-- The number of names is not zero, so the list of bindings is read as one with commas. -/
theorem isReadStmt_declare {location : Location} {mutable : Bool} {bindings : List Binding}
    {value : Option Expr} (hne : bindings ≠ []) (hbindings : ∀ b ∈ bindings, b.isWritable)
    (hvalue : ∀ e ∈ value, IsRead deep e) :
    IsReadStmt deep (.declare location mutable bindings value) := by
  intro levels hshort
  rw [Stmt.kinds, List.length_cons, List.length_append] at hshort
  refine isReadStmtAt_declare hne hbindings hvalue fun e he hn => hshort ?_
  rw [Option.mem_def.mp he, announced, List.length_cons]
  omega

/-- Fields of a struct. The comma after one is taken with it. -/
theorem reads_fields {fields : List Field} (h : ∀ f ∈ fields, f.isWritable) {n : Nat}
    (hn : fields.length < n) :
    Reads deep
      (manyUpTo (notAt .rbrace) (do
        let f ← field .fieldName
        let _ ← accept .comma
        return f) n)
      (commas (fields.map Field.kinds) ++ .rbrace :: rest)
      (·.map Field.unlocated = fields.map Field.unlocated) (.rbrace :: rest) := by
  induction fields generalizing n with
  | nil =>
    obtain ⟨n, rfl⟩ := Nat.exists_eq_succ_of_ne_zero (Nat.ne_of_gt hn)
    refine (reads_notAt _).bind fun _ hmore => ?_
    rw [hmore, if_neg (by decide)]
    exact reads_pure rfl
  | cons f fields ih =>
    obtain ⟨n, rfl⟩ := Nat.exists_eq_succ_of_ne_zero (Nat.ne_of_gt (Nat.zero_lt_of_lt hn))
    rw [List.forall_mem_cons] at h
    have hfields := ih h.2 (Nat.lt_of_succ_lt_succ hn)
    -- the comma is behind every field but the last, and the field is read with it
    have hitem : Reads deep
        (do
          let f ← field .fieldName
          let _ ← accept .comma
          return f)
        (commas ((f :: fields).map Field.kinds) ++ .rbrace :: rest)
        (·.unlocated = f.unlocated) (commas (fields.map Field.kinds) ++ .rbrace :: rest) := by
      cases fields with
      | nil =>
        rw [List.map_singleton, commas, List.flatMap_nil, List.append_nil]
        refine (reads_field h.1 _ (by simp)).bind fun f' hf' => ?_
        exact (reads_accept_other (by decide)).bind fun _ _ => reads_pure hf'
      | cons g fields =>
        have hcommas : commas ((f :: g :: fields).map Field.kinds) ++ .rbrace :: rest =
            f.kinds ++ .comma :: (commas ((g :: fields).map Field.kinds) ++ .rbrace :: rest) := by
          simp [commas]
        rw [hcommas]
        refine (reads_field h.1 _ (by simp)).bind fun f' hf' => ?_
        exact (reads_accept rfl (by simp)).bind fun _ _ => reads_pure hf'
    -- the first token is a name, so the loop goes on
    have hopen : commas ((f :: fields).map Field.kinds) ++ .rbrace :: rest =
        .identifier f.name :: (.colon :: f.type.kinds ++
          (fields.map Field.kinds).flatMap (TokenKind.comma :: ·) ++ .rbrace :: rest) := rfl
    rw [hopen] at hitem ⊢
    refine (reads_notAt _).bind fun _ hmore => ?_
    rw [hmore, if_pos (by simp)]
    refine hitem.bind fun f' hf' => hfields.bind fun fields' hfields' => reads_pure ?_
    rw [List.map_cons, List.map_cons, hf', hfields']

/-- A struct needs no levels. -/
theorem isReadStmtAt_struct {location : Location} {decl : StructDecl} {levels : Nat}
    (h : decl.isWritable) : IsReadStmtAt deep levels (.struct location decl) := by
  intro _ rest
  obtain ⟨-, hfields⟩ := Bool.and_eq_true_iff.mp h
  have hfields : ∀ f ∈ decl.fields, f.isWritable := List.all_eq_true.mp hfields
  have hmany : Reads deep
      (many (notAt .rbrace) do
        let f ← field .fieldName
        let _ ← accept .comma
        return f)
      (commas (decl.fields.map Field.kinds) ++ .rbrace :: .semicolon :: rest)
      (·.map Field.unlocated = decl.fields.map Field.unlocated)
      (.rbrace :: .semicolon :: rest) := by
    intro p hp
    -- the loop has as many rounds as there are tokens, and every field takes at least one
    have hrounds := hp.length_le
    have hlength : decl.fields.length ≤ (commas (decl.fields.map Field.kinds)).length :=
      length_le_length_commas (by simp [Field.kinds])
    rw [List.length_append, List.length_cons] at hrounds
    exact reads_fields hfields (by omega) p hp
  rw [Stmt.kinds, StructDecl.kinds, braced, List.cons_append, List.cons_append, List.cons_append,
    List.append_assoc, List.singleton_append]
  refine (reads_expect rfl (by simp)).bind fun _ _ => ?_
  refine (reads_expectName _ (by simp)).bind fun name hname => ?_
  refine (reads_expect rfl (by simp)).bind fun _ _ => ?_
  refine hmany.bind fun fields hfields => ?_
  refine (reads_expect rfl (by simp)).bind fun _ _ => reads_pure ?_
  rw [Stmt.unlocated, Stmt.unlocated, StructDecl.unlocated, StructDecl.unlocated, hname, hfields]

/-- Parameters, the result and the body, after the keyword. -/
theorem reads_function {location : Location} {header : FunctionHeader} {body : List Stmt}
    {levels : Nat} (hheader : header.isWritable) (hbody : ∀ s ∈ body, IsReadStmt deep s)
    (hshort : levels ≤ (Stmt.kindsAll body).length → deep) :
    Reads deep (function (deeper levels) header.exported)
      (header.signature ++ (braced (Stmt.kindsAll body) ++ .semicolon :: rest))
      (·.unlocated = (Stmt.function location header body).unlocated) (.semicolon :: rest) := by
  simp only [FunctionHeader.isWritable, Bool.and_eq_true, List.all_eq_true,
    Option.all_eq_true] at hheader
  obtain ⟨⟨-, hparams⟩, hreturn⟩ := hheader
  have hblock : Reads deep (block (deeper levels))
      (braced (Stmt.kindsAll body) ++ .semicolon :: rest)
      (Stmt.unlocatedAll · = Stmt.unlocatedAll body) (.semicolon :: rest) :=
    reads_block hbody hshort (by simp)
  rw [FunctionHeader.signature, List.cons_append, List.cons_append, List.cons_append,
    List.append_assoc, List.cons_append]
  refine (reads_expect rfl (by simp)).bind fun _ _ => ?_
  refine (reads_expectName _ (by simp)).bind fun name hname => ?_
  refine (reads_expect rfl (by simp)).bind fun _ _ => ?_
  refine Reads.commaList (by decide) (fun f _ => ⟨_, _, rfl, by simp⟩)
    (fun f hf rest hrest => reads_field (hparams f hf) _ hrest.ne_nil) fun params' hparams' => ?_
  refine (reads_expect rfl (by simp [braced])).bind fun _ _ => ?_
  refine Reads.announced id rfl (by decide)
    (fun t ht => reads_typeName (hreturn t ht) (by simp)) fun type' htype' => ?_
  refine hblock.bind fun body' hbody' => reads_pure ?_
  have htype' : type' = header.returnType := by simpa using htype'
  rw [Stmt.unlocated, Stmt.unlocated, FunctionHeader.unlocated, FunctionHeader.unlocated, hname,
    hparams', htype', hbody']

/-- Only the body of a function needs levels. -/
theorem isReadStmtAt_function {location : Location} {header : FunctionHeader} {body : List Stmt}
    {levels : Nat} (hheader : header.isWritable) (hbody : ∀ s ∈ body, IsReadStmt deep s)
    (hshort : levels ≤ (Stmt.kindsAll body).length → deep) :
    IsReadStmtAt deep levels (.function location header body) := by
  intro _ rest
  have hread : Reads deep (function (deeper levels) header.exported)
      (header.signature ++ (braced (Stmt.kindsAll body) ++ .semicolon :: rest))
      (·.unlocated = (Stmt.function location header body).unlocated) (.semicolon :: rest) :=
    reads_function hheader hbody hshort
  rw [Stmt.kinds, List.append_assoc, parserOf, FunctionHeader.kinds]
  cases hexported : header.exported with
  | false => rwa [hexported] at hread
  | true =>
    rw [hexported] at hread
    refine (reads_expect rfl (by simp)).bind fun _ _ => ?_
    refine (reads_check _).bind fun _ hcheck => ?_
    rw [hcheck, if_pos (by decide)]
    exact hread

/-- The body has fewer tokens than the function. -/
theorem isReadStmt_function {location : Location} {header : FunctionHeader} {body : List Stmt}
    (hheader : header.isWritable) (hbody : ∀ s ∈ body, IsReadStmt deep s) :
    IsReadStmt deep (.function location header body) := by
  intro levels hshort
  rw [Stmt.kinds, List.length_append, braced, List.length_cons, List.length_append] at hshort
  exact isReadStmtAt_function hheader hbody fun hn => hshort (by omega)

/-! ### Simple statements -/

/-- A semicolon begins no expression, so a return without a value is told from one with a value. -/
theorem isReadStmt_ret {location : Location} {value : Option Expr}
    (h : ∀ e ∈ value, IsRead deep e) : IsReadStmt deep (.ret location value) := by
  intro levels hshort _ rest
  cases value with
  | none =>
    refine (reads_expect rfl (by simp)).bind fun _ _ => ?_
    refine reads_peek.bind fun token htoken => ?_
    rw [htoken, if_pos (by decide)]
    exact (reads_pure (Q := (· = none)) rfl).bind fun _ hvalue => reads_pure (by rw [hvalue]; rfl)
  | some e =>
    obtain ⟨first, others, hkinds, hfirst⟩ := e.beginsExpression_kinds.append (.semicolon :: rest)
    have hvalue : Reads deep (some <$> expression levels lowest) (e.kinds ++ .semicolon :: rest)
        (·.map Expr.unlocated = some e.unlocated) (.semicolon :: rest) :=
      ((h e rfl).reads .semicolon rfl fun hn => hshort (Nat.lt_succ_of_lt hn)).map
        fun e' he' => by rw [Option.map_some, he']
    -- an expression begins with none of the tokens that end a return without a value
    have hsome : ¬(first = .semicolon || first = .rbrace || first = .endOfInput) := by
      simp only [Bool.or_eq_true, decide_eq_true_eq]
      rintro ((rfl | rfl) | rfl) <;> cases hfirst
    rw [Stmt.kinds, List.cons_append]
    refine (reads_expect rfl (by simp)).bind fun _ _ => ?_
    rw [hkinds] at hvalue ⊢
    refine reads_peek.bind fun token htoken => ?_
    rw [htoken, if_neg hsome]
    refine hvalue.bind fun value hvalue => reads_pure ?_
    rw [Stmt.unlocated, Stmt.unlocated, hvalue, Option.map_some]

theorem isReadStmt_print {location : Location} {e : Expr} (h : IsRead deep e) :
    IsReadStmt deep (.print location e) := by
  intro levels hshort _ rest
  refine (reads_expect rfl (by simp)).bind fun _ _ => ?_
  refine (h.reads .semicolon rfl fun hn => hshort (Nat.lt_succ_of_lt hn)).bind
    fun e' he' => reads_pure ?_
  rw [Stmt.unlocated, Stmt.unlocated, he']

/-- No assignment sign follows the expression. -/
theorem isReadStmt_expression {location : Location} {e : Expr} (h : IsRead deep e) :
    IsReadStmt deep (.expression location e) := by
  intro levels hshort _ rest
  have hread : Reads deep (expression levels lowest) (e.kinds ++ .semicolon :: rest)
      (·.unlocated = e.unlocated) (.semicolon :: rest) := h.reads .semicolon rfl hshort
  obtain ⟨first, others, hkinds, -⟩ := e.beginsExpression_kinds.append (.semicolon :: rest)
  rw [Stmt.kinds, hkinds]
  rw [hkinds] at hread
  refine reads_peek.bind fun _ _ => hread.bind fun e' he' => ?_
  refine (reads_check _).bind fun _ hcheck => ?_
  rw [hcheck, if_neg (by decide)]
  exact reads_pure (by rw [Stmt.unlocated, Stmt.unlocated, he'])

/-- What can be assigned to does not depend on places. -/
theorem isTarget_unlocated (e : Expr) : isTarget e.unlocated = isTarget e := by
  cases e <;> rfl

/-- The target is read as an expression first. -/
theorem isReadStmt_assign {location : Location} {target value : Expr}
    (hassignable : isTarget target) (htarget : IsRead deep target) (hvalue : IsRead deep value) :
    IsReadStmt deep (.assign location target value) := by
  intro levels hshort _ rest
  rw [Stmt.kinds, List.length_append, List.length_cons] at hshort
  have hread : Reads deep (expression levels lowest)
      (target.kinds ++ .assign :: (value.kinds ++ .semicolon :: rest))
      (·.unlocated = target.unlocated) (.assign :: (value.kinds ++ .semicolon :: rest)) :=
    htarget.reads .assign rfl fun hn => hshort (by omega)
  obtain ⟨first, others, hkinds, -⟩ := target.beginsExpression_kinds.append
    (.assign :: (value.kinds ++ .semicolon :: rest))
  rw [Stmt.kinds, List.append_assoc, List.cons_append, hkinds]
  rw [hkinds] at hread
  refine reads_peek.bind fun _ _ => hread.bind fun target' htarget' => ?_
  -- being a target does not depend on locations, so the expression read is one as well
  have hassignable' : isTarget target' := by
    rw [← isTarget_unlocated, htarget', isTarget_unlocated]
    exact hassignable
  refine (reads_check _).bind fun _ hcheck => ?_
  rw [hcheck, if_pos (by decide), hassignable', if_pos rfl]
  refine (reads_advance rfl (by simp)).bind fun _ _ => ?_
  refine (hvalue.reads .semicolon rfl fun hn => hshort (by omega)).bind
    fun value' hvalue' => reads_pure ?_
  rw [Stmt.unlocated, Stmt.unlocated, htarget', hvalue']

/-! ### Conditions

The statements with a condition, and chains of them. -/

theorem isReadStmt_whileLoop {location : Location} {condition : Expr} {body : List Stmt}
    (hcondition : IsRead deep condition) (hbody : ∀ s ∈ body, IsReadStmt deep s) :
    IsReadStmt deep (.whileLoop location condition body) := by
  intro levels hshort _ rest
  rw [Stmt.kinds, List.length_cons, List.length_append, braced, List.length_cons,
    List.length_append] at hshort
  rw [Stmt.kinds, List.cons_append, List.append_assoc]
  refine (reads_expect rfl (by simp)).bind fun _ _ => ?_
  refine (hcondition.reads .lbrace rfl fun hn => hshort (by omega)).bind
    fun condition' hcondition' => ?_
  refine (reads_block hbody (fun hn => hshort (by omega)) (by simp)).bind
    fun body' hbody' => reads_pure ?_
  rw [Stmt.unlocated, Stmt.unlocated, hcondition', hbody']

/-- What follows an `else`. A condition is read one level further down. -/
theorem IsReadStmt.alternate {s : Stmt} (h : IsReadStmt deep s) (hs : s.isAlternate) {levels : Nat}
    (hshort : levels ≤ s.kinds.length → deep) :
    Reads deep (alternate (deeper levels)) (s.kinds ++ .semicolon :: rest)
      (·.unlocated = s.unlocated) (.semicolon :: rest) := by
  cases s with
  | conditional location condition body other =>
    -- the conditional is read one level further down, which its own tokens pay for
    have hread : Reads deep (descend (deeper levels) >>= (·.conditional))
        ((Stmt.conditional location condition body other).kinds ++ .semicolon :: rest)
        (·.unlocated = (Stmt.conditional location condition body other).unlocated)
        (.semicolon :: rest) := by
      refine Reads.descend (fun hzero => hshort (by omega)) fun n hn => ?_
      rw [level_eq]
      exact h n (fun hn' => hshort (by omega)) default rest
    rw [Stmt.kinds_conditional] at hread ⊢
    refine reads_peek.bind fun token htoken => ?_
    rw [htoken, if_pos rfl]
    exact hread
  | block _ body =>
    refine reads_peek.bind fun token htoken => ?_
    rw [htoken, if_neg (by decide), ← map_eq_pure_bind]
    exact h levels (fun hn => hshort (by omega)) token.location rest
  | _ => cases hs

/-- The condition, the block, and what follows an `else` if there is one. -/
theorem isReadStmt_conditional {location : Location} {condition : Expr} {body : List Stmt}
    {other : Option Stmt} (hcondition : IsRead deep condition)
    (hbody : ∀ s ∈ body, IsReadStmt deep s)
    (hother : ∀ s ∈ other, s.isAlternate ∧ IsReadStmt deep s) :
    IsReadStmt deep (.conditional location condition body other) := by
  intro levels hshort _ rest
  rw [Stmt.kinds_conditional, List.length_cons, List.length_append, List.length_append, braced,
    List.length_cons, List.length_append] at hshort
  rw [Stmt.kinds_conditional, List.cons_append, List.append_assoc, List.append_assoc]
  refine (reads_expect rfl (by simp)).bind fun _ _ => ?_
  refine (hcondition.reads .lbrace rfl fun hn => hshort (by omega)).bind
    fun condition' hcondition' => ?_
  refine (reads_block hbody (fun hn => hshort (by omega)) (by simp)).bind fun body' hbody' => ?_
  refine Reads.announced Stmt.unlocated rfl (by decide) (fun s hs => ?_)
    fun other' hother' => reads_pure ?_
  · have hlength : (announced .kwElse Stmt.kinds other).length = s.kinds.length + 1 := by
      rw [Option.mem_def.mp hs]
      rfl
    exact (hother s hs).2.alternate (hother s hs).1 fun hn => hshort (by omega)
  · rw [Stmt.unlocated_conditional, Stmt.unlocated_conditional, hcondition', hbody', hother']

/-! ### Programs

From the statements to the text. -/

mutual

/-- Every statement that can be written is read from its tokens. -/
theorem isReadStmt_of_isWritable : (s : Stmt) → s.isWritable → IsReadStmt deep s
  | .declare _ _ bindings value, h => by
    simp only [Stmt.isWritable, Bool.and_eq_true, List.all_eq_true, Option.all_eq_true,
      Bool.not_eq_true', List.isEmpty_eq_false_iff] at h
    exact isReadStmt_declare h.1.1 h.1.2 fun e he => isRead_of_isWritable e (h.2 e he)
  | .function _ header body, h =>
    have h := Bool.and_eq_true_iff.mp h
    isReadStmt_function h.1 (isReadStmt_of_mem body h.2)
  | .struct .., h => fun _ _ => isReadStmtAt_struct h
  | .ret _ value, h => by
    simp only [Stmt.isWritable, Option.all_eq_true] at h
    exact isReadStmt_ret fun e he => isRead_of_isWritable e (h e he)
  | .assign _ target value, h => by
    simp only [Stmt.isWritable, Bool.and_eq_true] at h
    exact isReadStmt_assign h.1.1 (isRead_of_isWritable target h.1.2)
      (isRead_of_isWritable value h.2)
  | .conditional _ condition body none, h => by
    have h := Bool.and_eq_true_iff.mp h
    exact isReadStmt_conditional (isRead_of_isWritable condition h.1)
      (isReadStmt_of_mem body h.2) (by simp)
  | .conditional _ condition body (some other), h => by
    simp only [Stmt.isWritable, Bool.and_eq_true] at h
    obtain ⟨⟨⟨hcondition, hbody⟩, halternate⟩, hother⟩ := h
    refine isReadStmt_conditional (isRead_of_isWritable condition hcondition)
      (isReadStmt_of_mem body hbody) fun s hs => ?_
    rw [← Option.some.inj hs]
    exact ⟨halternate, isReadStmt_of_isWritable other hother⟩
  | .whileLoop _ condition body, h =>
    have h := Bool.and_eq_true_iff.mp h
    isReadStmt_whileLoop (isRead_of_isWritable condition h.1) (isReadStmt_of_mem body h.2)
  | .print _ value, h => isReadStmt_print (isRead_of_isWritable value h)
  | .expression _ value, h => isReadStmt_expression (isRead_of_isWritable value h)
  | .block _ body, h => isReadStmt_block (isReadStmt_of_mem body h)

theorem isReadStmt_of_mem : (ss : List Stmt) → Stmt.allWritable ss → ∀ s ∈ ss, IsReadStmt deep s
  | [], _ => by simp
  | s :: ss, h =>
    have h := Bool.and_eq_true_iff.mp h
    List.forall_mem_cons.mpr ⟨isReadStmt_of_isWritable s h.1, isReadStmt_of_mem ss h.2⟩

end

/-- The statements are read one after another, up to the end of the text. -/
theorem reads_program_of_statements {P : Program}
    (h : ∀ s ∈ P.statements, IsReadStmtAt deep maxNesting s) :
    Reads deep program (P.kinds ++ [TokenKind.endOfInput]) (·.unlocated = P.unlocated)
      [.endOfInput] := by
  rw [program, Program.kinds]
  refine (reads_skipSemicolons_kindsAll (.inr rfl)).bind fun _ _ => ?_
  refine (reads_statements h (.inr rfl)).bind fun ss hss => reads_pure ?_
  rw [Program.unlocated, Program.unlocated, hss]

/-- Only a program with more tokens than there are levels can be too deep. -/
theorem reads_program {P : Program} (h : P.isWritable) :
    Reads (maxNesting < P.kinds.length) program (P.kinds ++ [TokenKind.endOfInput])
      (·.unlocated = P.unlocated) [.endOfInput] :=
  reads_program_of_statements (isReadStmtAt_of_mem (isReadStmt_of_mem P.statements h) id)

end Parse

/-- The string literals of a program, in the order of its text. -/
def Program.texts (program : Program) : List String :=
  TokenKind.texts program.kinds

/-- A text with the tokens of a program, whatever blanks and comments there are. -/
def Program.IsWritten (program : Program) (text : String) : Prop :=
  (lexemes text).map Lexeme.kind? = (program.kinds ++ [TokenKind.endOfInput]).map some

/-- The text that is rendered is one of those with the tokens of the program. -/
theorem Program.isWritten_render {program : Program} (h : program.isWritable) :
    program.IsWritten program.render := by
  rw [Program.IsWritten, Program.render]
  exact (Program.lexesTo_render h).lexemes

open Parse in
/-- **Parsing undoes writing.** A program that can be written is read from its text, and from every
text with the same tokens, as that program but for the places of its parts, and its string literals
are put into the pool. There are two exceptions: the nesting may be too deep, which needs more
tokens than there are levels, and the pool may have no room for the literals. The parser never
fails otherwise. -/
theorem parseProgram_render (program : Program) (h : program.isWritable) :
    program.IsWritten program.render ∧ ∀ text strings, program.IsWritten text →
      (∃ parsed strings', parseProgram text strings = (.ok parsed, strings') ∧
          parsed.unlocated = program.unlocated ∧
          strings.internAll? program.texts = some strings') ∨
        (∃ location strings',
          parseProgram text strings = (.error (.malformed .tooDeep location), strings') ∧
            maxNesting < program.kinds.length) ∨
        ∃ location strings',
          parseProgram text strings = (.error (.malformed .stringsTooLarge location), strings') ∧
            strings.internAll? program.texts = none := by
  refine ⟨Program.isWritten_render h, fun text strings htext => ?_⟩
  obtain ⟨p, hstart, hfaces, hstrings⟩ := exists_start htext (by simp) strings
  have htexts : TokenKind.texts (program.kinds ++ [TokenKind.endOfInput]) = program.texts := by
    simp [TokenKind.texts, Program.texts, TokenKind.text?]
  have houtcome := reads_program h p hfaces
  rw [htexts, hstrings] at houtcome
  unfold parseProgram
  rw [hstart]
  cases hrun : Parse.program p with
  | ok parsed p' =>
    rw [hrun] at houtcome
    obtain ⟨hparsed, -, hpool⟩ := houtcome
    exact .inl ⟨parsed, p'.strings, by simp only [hrun], hparsed, hpool.symm⟩
  | error e p' =>
    rw [hrun] at houtcome
    obtain ⟨location, rfl, hdeep⟩ | ⟨location, rfl, hpool⟩ := houtcome.error_cases
    · exact .inr (.inl ⟨location, p'.strings, by simp only [hrun], hdeep⟩)
    · exact .inr (.inr ⟨location, p'.strings, by simp only [hrun], hpool⟩)

/-- A program with a difference as a factor, a negated element and a tuple of one type. -/
def Program.factors : Program :=
  ⟨[.declare default false [⟨"x", some (.tuple [.named "i32"]), none, default⟩]
      (some (.tuple default [.string default "s",
        .binary default .mul
          (.unary default .negate
            (.index default (.member default (.identifier default "a") "b") (.integer default 0)))
          (.binary default .sub (.identifier default "c") (.integer default 1))])),
    .assign default (.member default (.identifier default "x") "y")
      (.index default (.call default "f" [.integer default 1]) (.integer default 2))]⟩

/-- Of these only the difference needs parentheses, and the tuple needs a comma. -/
theorem parseProgram_render_factors :
    Program.factors.isWritable ∧
      Program.factors.render =
        "let x : ( i32 , ) = ( 's' , - a . b [ 0 ] * ( c - 1 ) ) ; x . y = f ( 1 ) [ 2 ] ; " ∧
      ∃ parsed strings, parseProgram Program.factors.render (.empty 8) = (.ok parsed, strings) ∧
        parsed.unlocated = Program.factors.unlocated := by
  have hwritable : Program.factors.isWritable := by decide
  refine ⟨hwritable, by decide, ?_⟩
  obtain ⟨hwritten, hread⟩ := parseProgram_render Program.factors hwritable
  rcases hread _ (.empty 8) hwritten with
    ⟨parsed, strings, hparse, hparsed, -⟩ | ⟨-, -, -, hdeep⟩ | ⟨-, -, -, hpool⟩
  · exact ⟨parsed, strings, hparse, hparsed⟩
  · exact absurd hdeep (by decide)
  · exact absurd hpool (by decide)

end WasmCompiler
