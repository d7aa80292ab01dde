import Mathlib.Order.Bounds.Defs
import Mathlib.Tactic.Ring
import WasmCompiler.Proofs.Tree.Facing
import WasmCompiler.Proofs.Tree.Parsing

/-!
# How high parsed expressions are

An expression that is parsed with `n` levels left is at most `n (n + 1) / 2` high. Each operator
folded into an expression takes a level, but when an operand has been read, the levels it used are
available again for the operators after it. So `n` levels allow an operand of `n - 1` levels and
`n - 1` operators on top of it, and the heights add up.

Nothing less is a limit: in a tower, where each storey is an array with the storey above as its
item and as many field accesses on it as there are levels, every operator makes the tree higher.
`isGreatest_height` puts the two together, and `height_le_maxNesting_iff` says with how many levels
left the heights are still within `maxNesting`.
-/

namespace WasmCompiler.Parse

/-- The greatest height of an expression with a number of levels. -/
def heightLimit (levels : Nat) : Nat :=
  levels * (levels + 1) / 2

/-- One more level adds as much as there are levels then. -/
theorem heightLimit_succ (n : Nat) : heightLimit (n + 1) = heightLimit n + (n + 1) := by
  simp only [heightLimit]
  have h : (n + 1) * (n + 1 + 1) = n * (n + 1) + (n + 1) * 2 := by ring
  rw [h, Nat.add_mul_div_right _ _ (by decide)]

/-- With more levels, an expression may be higher. -/
theorem heightLimit_mono {m n : Nat} (h : m ≤ n) : heightLimit m ≤ heightLimit n :=
  Nat.div_le_div_right (Nat.mul_le_mul h (Nat.succ_le_succ h))

/-- Any property of the state is kept if there is none. -/
theorem invariant_true : Invariant fun _ => True :=
  ⟨fun _ _ => trivial, fun _ _ => trivial⟩

/-- An operand was parsed with one level less, and all levels are there again when it has been
read. -/
theorem heightRules_operand (n : Nat) :
    OperandRules (fun _ => True) (fun _ e => e.height ≤ heightLimit n)
      fun _ e => e.height + n ≤ heightLimit (n + 1) where
  integer _ _ := by rw [Expr.height, heightLimit_succ]; omega
  truth _ := by simp only [Expr.height, heightLimit_succ]; omega
  float := by simp only [Expr.height, heightLimit_succ]; omega
  string _ := by simp only [Expr.height, heightLimit_succ]; omega
  identifier := by simp only [Expr.height, heightLimit_succ]; omega
  unary h := by rw [Expr.height, heightLimit_succ]; omega
  group h := by rw [heightLimit_succ]; omega
  array h := by
    have := Expr.maxHeight_le_iff.mpr h
    rw [Expr.height, heightLimit_succ]
    omega
  tuple h := by
    have := Expr.maxHeight_le_iff.mpr h
    rw [Expr.height, heightLimit_succ]
    omega

/-- An operator makes an expression one higher than its highest part. The part to the right was
parsed with `k` levels, so it is low enough. -/
theorem heightRules_extension {k n : Nat} (hk : k < n) :
    ExtensionRules (fun _ e => e.height ≤ heightLimit k)
      (fun _ e => e.height + (k + 1) ≤ heightLimit (n + 1))
      fun _ e => e.height + k ≤ heightLimit (n + 1) := by
  -- even below `k + 1` operators, what is read with `k` levels left stays within the limit
  have hlimit : heightLimit k + (k + 1) ≤ heightLimit (n + 1) := by
    rw [← heightLimit_succ]
    exact heightLimit_mono (by omega)
  constructor
  · intro _ _ _ args hargs
    have := Expr.maxHeight_le_iff.mpr hargs
    rw [Expr.height]
    omega
  · intro _ _ base index hbase hindex
    rw [Expr.height]
    omega
  · intro _ _ base _ hbase
    rw [Expr.height]
    omega
  · intro _ _ _ left right hleft hright
    rw [Expr.height]
    omega

/-- By the rules for operands and extensions, whatever precedence is asked for. -/
theorem makes_expression_height (levels precedence : Nat) :
    Makes (fun _ => True) (expression levels precedence) fun _ e =>
      e.height ≤ heightLimit levels :=
  makes_expression (P := fun n k _ e => e.height + k ≤ heightLimit (n + 1)) invariant_true
    (fun _ => lasting_const _) (fun _ _ => lasting_const _) heightRules_operand
    (fun _ _ hk => heightRules_extension hk) (fun _ _ _ _ _ h => by omega) levels precedence

/-- Every expression of a parsed program is at most as high as all levels allow. -/
theorem makes_program_height :
    Makes (fun _ => True) program fun _ program =>
      ∀ e ∈ program.exprs, e.height ≤ heightLimit maxNesting := by
  have hexpr (k : Nat) (hk : k ≤ maxNesting) :
      Makes (fun _ => True) (expression k lowest) fun _ e => e.height ≤ heightLimit maxNesting :=
    (makes_expression_height k lowest).weaken fun _ _ h => Nat.le_trans h (heightLimit_mono hk)
  exact (makes_program invariant_true (lasting_const _) hexpr).weaken fun _ _ h => h.1

/-! ### Towers

The text of a tower, its tokens, and the expression that is read from them. -/

/-- Field accesses and what follows them. -/
def memberKinds : Nat → List TokenKind → List TokenKind
  | 0, rest => rest
  | n + 1, rest => .dot :: .identifier "a" :: memberKinds n rest

/-- A tower of `n` storeys above the ground and what follows it. -/
def towerKinds : Nat → List TokenKind → List TokenKind
  | 0, rest => .identifier "a" :: rest
  | n + 1, rest => .lbracket :: towerKinds n (.rbracket :: memberKinds (n + 1) rest)

/-- The text of field accesses. -/
def memberText : Nat → List Char → List Char
  | 0, rest => rest
  | n + 1, rest => '.' :: 'a' :: memberText n rest

/-- The text of a tower. -/
def towerText : Nat → List Char → List Char
  | 0, rest => 'a' :: rest
  | n + 1, rest => '[' :: towerText n (']' :: memberText (n + 1) rest)

/-- Delimiters end a word. -/
def EndsWord (cs : List Char) : Prop :=
  ∀ c ∈ cs.head?, isWordChar c = false

theorem lexesTo_name {rest : List Char} {kinds : List TokenKind} (h : LexesTo rest kinds)
    (hrest : EndsWord rest) : LexesTo ('a' :: rest) (.identifier "a" :: kinds) := by
  have hword : ('a' :: rest).takeWhile isWordChar = ['a'] := by
    rw [List.takeWhile_cons_of_pos (by decide)]
    cases rest with
    | nil => rfl
    | cons c cs => rw [List.takeWhile_cons_of_neg (by simp [hrest c rfl])]
  refine LexesTo.cons [] h (by decide) (by decide) ?_ (by decide)
  show spell 'a' rest = _
  rw [spell, if_neg (by decide), if_pos (by decide), hword]
  rfl

/-- A delimiter that begins no operator of two characters. -/
theorem lexesTo_delimiter {c : Char} {rest : List Char} {kind : TokenKind}
    {kinds : List TokenKind} (h : LexesTo rest kinds)
    (hc : (c, kind) ∈ [('[', TokenKind.lbracket), (']', .rbracket), ('.', .dot)]) :
    LexesTo (c :: rest) (kind :: kinds) := by
  simp only [List.mem_cons, Prod.mk.injEq, List.not_mem_nil, or_false] at hc
  have hspell : spell c rest = .token kind 1 := by
    rcases hc with ⟨rfl, rfl⟩ | ⟨rfl, rfl⟩ | ⟨rfl, rfl⟩ <;> cases rest <;> rfl
  have hplain : Text.isBlank c = false ∧ c ≠ '/' ∧ kind ≠ .endOfInput := by
    rcases hc with ⟨rfl, rfl⟩ | ⟨rfl, rfl⟩ | ⟨rfl, rfl⟩ <;> decide
  exact LexesTo.cons [] h hplain.1 hplain.2.1 hspell hplain.2.2

/-- A field access begins with a dot, which ends a word. -/
theorem endsWord_memberText {n : Nat} {rest : List Char} (h : EndsWord rest) :
    EndsWord (memberText n rest) := by
  cases n with
  | zero => exact h
  | succ n => simp [EndsWord, memberText]; decide

/-- By induction on the number of field accesses. -/
theorem lexesTo_members (n : Nat) {rest : List Char} {kinds : List TokenKind}
    (h : LexesTo rest kinds) (hrest : EndsWord rest) :
    LexesTo (memberText n rest) (memberKinds n kinds) := by
  induction n with
  | zero => exact h
  | succ n ih =>
    exact lexesTo_delimiter (lexesTo_name ih (endsWord_memberText hrest)) (by simp)

/-- By induction on the storeys, each with its field accesses behind it. -/
theorem lexesTo_tower (n : Nat) {rest : List Char} {kinds : List TokenKind}
    (h : LexesTo rest kinds) (hrest : EndsWord rest) :
    LexesTo (towerText n rest) (towerKinds n kinds) := by
  induction n generalizing rest kinds with
  | zero => exact lexesTo_name h hrest
  | succ n ih =>
    have hmembers := lexesTo_members (n + 1) h hrest
    have hclose : EndsWord (']' :: memberText (n + 1) rest) := by simp [EndsWord]; decide
    exact lexesTo_delimiter (ih (lexesTo_delimiter hmembers (by simp)) hclose) (by simp)

/-- Whether an expression ends at a token. -/
def EndsExpression (kind : TokenKind) : Prop :=
  Continuation.ofToken? kind = none

/-- The next operator is looked at and stays. -/
theorem takes_continuation {kind : TokenKind} {kinds : List TokenKind} (precedence : Nat) :
    Takes (continuation? precedence) (kind :: kinds)
      (· = (Continuation.ofToken? kind).filter (precedence < ·.precedence)) (kind :: kinds) :=
  takes_peek.bind fun _ ht => takes_pure (by rw [ht])

/-- A climb ends at once where no operator follows. -/
theorem takes_climb_end {kind : TokenKind} {kinds : List TokenKind} (hend : EndsExpression kind)
    (levels precedence : Nat) (left : Expr) :
    Takes (climb levels precedence left) (kind :: kinds) (· = left) (kind :: kinds) := by
  cases levels <;> rw [climb]
  all_goals
    refine (takes_continuation precedence).bind fun c hc => ?_
    rw [hc, hend]
    exact takes_pure rfl

/-- Each field access makes the expression higher by one and takes one level. -/
theorem takes_climb_members {kind : TokenKind} {kinds : List TokenKind}
    (hend : EndsExpression kind) (n : Nat) (left : Expr) :
    Takes (climb n lowest left) (memberKinds n (kind :: kinds)) (·.height = left.height + n)
      (kind :: kinds) := by
  induction n generalizing left with
  | zero => exact (takes_climb_end hend 0 lowest left).weaken fun _ h => by rw [h]; rfl
  | succ n ih =>
    obtain ⟨next, others, hnext⟩ : ∃ next others,
        memberKinds n (kind :: kinds) = next :: others := by
      cases n <;> exact ⟨_, _, rfl⟩
    rw [climb, memberKinds, hnext]
    refine (takes_continuation lowest).bind fun c hc => ?_
    -- a dot is always folded in
    rw [show c = some .member from hc]
    have hmember : Takes (extend (expression n) left .member)
        (.dot :: .identifier "a" :: next :: others) (·.height = left.height + 1)
        (next :: others) :=
      takes_advance.bind fun _ _ => (takes_expectName _).bind fun _ _ =>
        takes_pure (by simp only [Expr.height, Nat.add_comm])
    refine hmember.bind fun e he => ?_
    rw [← hnext]
    exact (ih e).weaken fun _ h => by omega

/-- A tower uses all the levels there are, and is as high as they allow. -/
theorem takes_tower {kind : TokenKind} {kinds : List TokenKind} (hend : EndsExpression kind)
    (n : Nat) :
    Takes (expression (n + 1) lowest) (towerKinds n (kind :: kinds))
      (·.height = heightLimit (n + 1)) (kind :: kinds) := by
  induction n generalizing kind kinds with
  | zero =>
    have hname : Takes (operand (expression 0)) (.identifier "a" :: kind :: kinds) (·.height = 1)
        (kind :: kinds) :=
      takes_advance.bind fun token htoken => by
        rw [htoken]
        exact takes_pure rfl
    rw [expression]
    exact hname.bind fun left hleft =>
      (takes_climb_end hend 0 lowest left).weaken fun _ h => by rw [h, hleft]; rfl
  | succ n ih =>
    -- the array is not empty
    obtain ⟨first, others, hfirst, hopen⟩ : ∃ first others,
        towerKinds n (.rbracket :: memberKinds (n + 1) (kind :: kinds)) = first :: others ∧
          first ≠ .rbracket := by
      cases n <;> exact ⟨_, _, rfl, by decide⟩
    have hitem : Takes (expression (n + 1) lowest)
        (towerKinds n (.rbracket :: memberKinds (n + 1) (kind :: kinds)))
        (·.height = heightLimit (n + 1)) (.rbracket :: memberKinds (n + 1) (kind :: kinds)) :=
      ih rfl
    rw [hfirst] at hitem
    have hitems : Takes (expressionList (expression (n + 1)) .rbracket) (first :: others)
        (fun es => ∃ e, es = [e] ∧ e.height = heightLimit (n + 1))
        (memberKinds (n + 1) (kind :: kinds)) := by
      refine (takes_check _).bind fun _ hcheck => ?_
      rw [hcheck, if_neg (by simpa using hopen)]
      exact (hitem.commaSeparated_one (by decide)).bind fun es hes =>
        takes_expect.bind fun _ _ => takes_pure hes
    have harray : Takes (operand (expression (n + 1))) (.lbracket :: first :: others)
        (·.height = heightLimit (n + 1) + 1) (memberKinds (n + 1) (kind :: kinds)) := by
      refine takes_advance.bind fun token htoken => ?_
      rw [htoken]
      refine hitems.map fun es hes => ?_
      obtain ⟨e, rfl, he⟩ := hes
      simp only [Expr.height, Expr.maxHeight, he]
      omega
    rw [expression, towerKinds, hfirst]
    refine harray.bind fun left hleft => ?_
    -- the member accesses behind the array use up the levels that are left
    refine (takes_climb_members hend (n + 1) left).weaken fun e he => ?_
    rw [he, hleft, heightLimit_succ (n + 1)]
    omega

/-- A tower on its own is a program. -/
theorem takes_program_tower {n : Nat} (hn : n + 2 = maxNesting) :
    Takes program (towerKinds (n + 1) [.endOfInput])
      (fun program => ∃ e ∈ program.exprs, e.height = heightLimit maxNesting) [.endOfInput] := by
  have htower : Takes (expression maxNesting lowest) (towerKinds (n + 1) [.endOfInput])
      (·.height = heightLimit maxNesting) [.endOfInput] := by
    rw [← hn]
    exact takes_tower (show EndsExpression .endOfInput from rfl) (n + 1)
  obtain ⟨others, hopen⟩ : ∃ others,
      towerKinds (n + 1) [.endOfInput] = .lbracket :: others := ⟨_, rfl⟩
  rw [hopen] at htower ⊢
  have hstmt : Takes (level maxNesting).statement (.lbracket :: others)
      (fun s => ∃ e ∈ s.exprs, e.height = heightLimit maxNesting) [.endOfInput] := by
    -- no assignment follows, so the tower is a statement of its own
    have halone : Takes (assignmentOrExpression maxNesting) (.lbracket :: others)
        (fun s => ∃ e ∈ s.exprs, e.height = heightLimit maxNesting) [.endOfInput] := by
      refine takes_peek.bind fun _ _ => htower.bind fun e he => (takes_check _).bind fun _ hc => ?_
      rw [hc, if_neg (by decide)]
      exact takes_pure ⟨e, by simp [Stmt.exprs], he⟩
    refine takes_peek.bind fun token htoken => ?_
    rw [htoken]
    exact halone.bind fun s hs => (takes_skipSemicolons (by decide)).bind fun _ _ => takes_pure hs
  refine (takes_skipSemicolons (by decide)).bind fun _ _ => Takes.map
    (Takes.many_one (takes_notAt _) hstmt (takes_notAt _)) fun stmts hstmts => ?_
  obtain ⟨s, rfl, e, hmem, he⟩ := hstmts
  exact ⟨e, by simpa [Program.exprs, Stmt.exprsAll] using hmem, he⟩

/-! ### The greatest height

The bound and the towers together. -/

/-- The heights of the expressions in programs are at most `heightLimit maxNesting`, which is far
above `maxNesting`, and no smaller number is a limit. The same holds of every expression that is
parsed on its own, whatever the operators that may stand in it. -/
theorem isGreatest_height :
    IsGreatest {height | ∃ text strings program strings',
        parseProgram text strings = (.ok program, strings') ∧
          ∃ e ∈ program.exprs, e.height = height} (heightLimit maxNesting) ∧
      (∀ precedence p e p', expression maxNesting precedence p = .ok e p' →
        e.height ≤ heightLimit maxNesting) ∧
      heightLimit maxNesting = 32896 := by
  refine ⟨⟨?_, ?_⟩, fun precedence p e p' h => ?_, by decide⟩
  · -- the tower is a program of this height
    obtain ⟨n, hn⟩ : ∃ n, n + 2 = maxNesting := ⟨254, rfl⟩
    have hlexes : LexesTo (towerText (n + 1) []) (towerKinds (n + 1) [.endOfInput]) :=
      lexesTo_tower (n + 1) lexesTo_nil (by simp [EndsWord])
    obtain ⟨p, hstart, hfaces, -⟩ := hlexes.start (by simp [towerKinds]) (.empty 0)
    obtain ⟨program, p', hrun, hheight, -⟩ := takes_program_tower hn p hfaces
    refine ⟨String.ofList (towerText (n + 1) []), .empty 0, program, p'.strings, ?_, hheight⟩
    exact parseProgram_eq_ok_iff.mpr ⟨p, p', hstart, hrun, rfl⟩
  · -- and no program has a higher one
    rintro height ⟨text, strings, program, strings', hparse, e, he, rfl⟩
    obtain ⟨p, p', -, hrun, -⟩ := parseProgram_eq_ok_iff.mp hparse
    exact (makes_program_height p _ _ hrun trivial).2.2 e he
  · exact (makes_expression_height maxNesting precedence p p' e h trivial).2.2

/-- Whatever is read with at most 22 levels left is within `maxNesting`: there the heights add up
to 253. With more levels there is a tower that is higher. -/
theorem height_le_maxNesting_iff (levels : Nat) :
    (∀ precedence p e p', expression levels precedence p = .ok e p' → e.height ≤ maxNesting) ↔
      levels ≤ 22 := by
  constructor
  · intro hlow
    by_contra hmany
    -- the tower for these levels is higher than the limit
    obtain ⟨n, rfl⟩ : ∃ n, levels = n + 1 := ⟨levels - 1, by omega⟩
    have hlexes : LexesTo (towerText n []) (towerKinds n [.endOfInput]) :=
      lexesTo_tower n lexesTo_nil (by simp [EndsWord])
    obtain ⟨p, -, hfaces, -⟩ := hlexes.start (by cases n <;> simp [towerKinds]) (.empty 0)
    obtain ⟨e, p', hrun, hheight, -⟩ :=
      takes_tower (show EndsExpression .endOfInput from rfl) n p hfaces
    have hhigh : heightLimit 23 ≤ e.height := by
      rw [hheight]
      exact heightLimit_mono (by omega)
    have hbound : e.height ≤ maxNesting := hlow _ p e p' hrun
    exact absurd (Nat.le_trans hhigh hbound) (by decide)
  · intro hfew precedence p e p' hrun
    have hheight : e.height ≤ heightLimit levels :=
      (makes_expression_height levels precedence p p' e hrun trivial).2.2
    calc e.height ≤ heightLimit levels := hheight
      _ ≤ heightLimit 22 := heightLimit_mono hfew
      _ ≤ maxNesting := by decide

end WasmCompiler.Parse
