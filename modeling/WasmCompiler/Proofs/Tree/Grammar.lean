import WasmCompiler.Proofs.Tree.Climbing
import WasmCompiler.Proofs.Tree.Consumption

/-!
# The grammar of expressions

`Derives` is the grammar that the parser of expressions follows. Its strata go from the loosest
operator to the tightest, every binary operator joins an expression of its own stratum to one of
the next, and a derivation says which operators are on its spine: those that are neither in
brackets, nor to the right of another operator, nor under a unary one.

While operators are folded in, what has been read so far derives in a stratum that admits whatever
can still follow (`Climbed`). One step of the climb keeps this (`consumes_extend`), and the whole
climb ends with an expression of the stratum that the context asks for (`consumes_expression`).

The headline is `expression_derives`: whatever precedence is asked for and whatever state the parser
is in, a tree that it returns has a derivation from the tokens that were taken, its spine binds more
tightly than the precedence, and the token after it does not.
-/

namespace WasmCompiler

open TokenKind (commas)

/-! ### Strata

The precedences of the operators as the levels of a grammar. -/

/-- The kinds of expressions, from the loosest to the tightest. -/
inductive Stratum where
  | or
  | and
  | comparison
  | sum
  | product
  | unary
  | suffixed
  | primary
deriving DecidableEq, Repr

namespace Stratum

/-- The place of a stratum among the others. -/
def rank : Stratum → Nat
  | or => 2
  | and => 3
  | comparison => 4
  | sum => 5
  | product => 6
  | unary => 7
  | suffixed => 8
  | primary => 9

/-- The next stratum, if there is one. -/
def tighter : Stratum → Stratum
  | or => and
  | and => comparison
  | comparison => sum
  | sum => product
  | product => unary
  | unary => suffixed
  | suffixed | primary => primary

/-- The loosest stratum whose operators all bind more tightly than a precedence. A unary operator
has its operand to the right and binds in any context. -/
def above : (precedence : Nat) → Stratum
  | 0 | 1 => or
  | 2 => and
  | 3 => comparison
  | 4 => sum
  | 5 => product
  | _ => unary

/-- No precedence asks for more than a unary expression. -/
theorem rank_above_le (precedence : Nat) : (above precedence).rank ≤ unary.rank := by
  unfold above
  split <;> decide

end Stratum

/-- The stratum of the expressions that an operator makes. -/
def BinaryOp.stratum : BinaryOp → Stratum
  | .or => .or
  | .and => .and
  | .eq | .ne | .lt | .gt | .le | .ge => .comparison
  | .add | .sub => .sum
  | .mul | .div => .product

/-! ### Derivations

One rule for each form of expression, and one that passes from a stratum to a looser one. -/

namespace Parse

/-- The tokens of something that can be called: a name, which may be in parentheses. -/
inductive IsCallee : List TokenKind → String → Prop where
  | name {name : String} : IsCallee [.identifier name] name
  | group {kinds : List TokenKind} {name : String} (h : IsCallee kinds name) :
      IsCallee (.lparen :: (kinds ++ [.rparen])) name

/-- A part of a text that is an expression: its tokens, its tree and the operators on its
spine. -/
structure Piece where
  kinds : List TokenKind
  tree : Expr
  spine : List Continuation

/-- The tokens are an expression of the stratum, with this tree and these operators on its
spine. -/
inductive Derives : Stratum → List TokenKind → Expr → (spine : List Continuation) → Prop where
  | integer {location : Location} {value : Nat} :
      Derives .primary [.integer value] (.integer location value) []
  | float {location : Location} {value : Number.Double} :
      Derives .primary [.float value] (.float location value) []
  | truth {location : Location} : Derives .primary [.kwTrue] (.integer location 1) []
  | falsehood {location : Location} : Derives .primary [.kwFalse] (.integer location 0) []
  | string {location : Location} {text : String} :
      Derives .primary [.string text] (.string location text) []
  | identifier {location : Location} {name : String} :
      Derives .primary [.identifier name] (.identifier location name) []
  | group {kinds : List TokenKind} {e : Expr} {spine : List Continuation}
      (h : Derives .or kinds e spine) : Derives .primary (.lparen :: (kinds ++ [.rparen])) e []
  | tuple {location : Location} {pieces : List Piece}
      (h : ∀ piece ∈ pieces, Derives .or piece.kinds piece.tree piece.spine)
      (hlength : 2 ≤ pieces.length) :
      Derives .primary (.lparen :: (commas (pieces.map (·.kinds)) ++ [.rparen]))
        (.tuple location (pieces.map (·.tree))) []
  | tupleComma {location : Location} {pieces : List Piece}
      (h : ∀ piece ∈ pieces, Derives .or piece.kinds piece.tree piece.spine)
      (hlength : 1 ≤ pieces.length) :
      Derives .primary (.lparen :: (commas (pieces.map (·.kinds)) ++ [.comma, .rparen]))
        (.tuple location (pieces.map (·.tree))) []
  | array {location : Location} {pieces : List Piece}
      (h : ∀ piece ∈ pieces, Derives .or piece.kinds piece.tree piece.spine) :
      Derives .primary (.lbracket :: (commas (pieces.map (·.kinds)) ++ [.rbracket]))
        (.array location (pieces.map (·.tree))) []
  | call {location : Location} {kinds : List TokenKind} {name : String} {pieces : List Piece}
      (hcallee : IsCallee kinds name)
      (h : ∀ piece ∈ pieces, Derives .or piece.kinds piece.tree piece.spine) :
      Derives .suffixed (kinds ++ .lparen :: (commas (pieces.map (·.kinds)) ++ [.rparen]))
        (.call location name (pieces.map (·.tree))) [.call]
  | index {location : Location} {kinds kinds' : List TokenKind} {base e : Expr}
      {spine spine' : List Continuation} (hbase : Derives .suffixed kinds base spine)
      (he : Derives .or kinds' e spine') :
      Derives .suffixed (kinds ++ .lbracket :: (kinds' ++ [.rbracket])) (.index location base e)
        (spine ++ [.index])
  | member {location : Location} {kinds : List TokenKind} {base : Expr} {name : String}
      {spine : List Continuation} (hbase : Derives .suffixed kinds base spine) :
      Derives .suffixed (kinds ++ [.dot, .identifier name]) (.member location base name)
        (spine ++ [.member])
  | unary {location : Location} {op : UnaryOp} {kinds : List TokenKind} {e : Expr}
      {spine : List Continuation} (he : Derives .unary kinds e spine) :
      Derives .unary (op.kind :: kinds) (.unary location op e) []
  | binary {location : Location} {op : BinaryOp} {kinds kinds' : List TokenKind}
      {left right : Expr} {spine spine' : List Continuation}
      (hleft : Derives op.stratum kinds left spine)
      (hright : Derives op.stratum.tighter kinds' right spine') :
      Derives op.stratum (kinds ++ op.kind :: kinds') (.binary location op left right)
        (spine ++ [.binary op])
  | tighter {s : Stratum} {kinds : List TokenKind} {e : Expr} {spine : List Continuation}
      (h : Derives s.tighter kinds e spine) : Derives s kinds e spine

variable {s s' : Stratum} {kinds : List TokenKind} {e : Expr} {spine : List Continuation}

/-- An expression of a stratum is one of every looser stratum. -/
theorem Derives.loosen (h : Derives s kinds e spine) (hrank : s'.rank ≤ s.rank) :
    Derives s' kinds e spine := by
  induction hn : s.rank - s'.rank generalizing s' with
  | zero =>
    have heq : s' = s := by
      have hsame : s'.rank = s.rank := by omega
      revert hsame
      cases s <;> cases s' <;> decide
    exact heq ▸ h
  | succ n ih =>
    have hnext : s'.tighter.rank = s'.rank + 1 := by
      have hlt : s'.rank < s.rank := by omega
      revert hlt
      cases s <;> cases s' <;> decide
    exact .tighter (ih (by omega) (by omega))

/-- Only a name in parentheses has the tree of a name. -/
theorem Derives.isCallee (h : Derives s kinds e spine) {location : Location} {name : String}
    (he : e = .identifier location name) : IsCallee kinds name := by
  induction h with
  | identifier =>
    cases he
    exact .name
  | group _ ih => exact .group (ih he)
  | tighter _ ih => exact ih he
  | _ => cases he

/-- No expression is empty, so every stratum takes a token. -/
theorem Derives.ne_nil (h : Derives s kinds e spine) : kinds ≠ [] := by
  induction h with
  | tighter _ ih => exact ih
  | _ => simp

/-! ### Operators and strata

The precedence of a continuation and the rank of its stratum say the same. -/

namespace Continuation

/-- The stratum of the expressions that a continuation makes. -/
def stratum : Continuation → Stratum
  | .binary op => op.stratum
  | .call | .index | .member => .suffixed

/-- Only operands are tighter than what continuations make. -/
theorem rank_stratum_le_suffixed (c : Continuation) : c.stratum.rank ≤ Stratum.suffixed.rank := by
  rcases c with _ | _ | _ | op
  · decide
  · decide
  · decide
  · cases op <;> decide

/-- What binds no more tightly than a binary operator makes an expression no tighter. -/
theorem rank_stratum_le {c : Continuation} {op : BinaryOp}
    (h : c.precedence ≤ (binary op).precedence) : c.stratum.rank ≤ op.stratum.rank := by
  revert h
  rcases c with _ | _ | _ | op'
  · cases op <;> decide
  · cases op <;> decide
  · cases op <;> decide
  · cases op <;> cases op' <;> decide

/-- What binds no more tightly than a unary operator makes an expression no tighter. -/
theorem rank_stratum_le_unary {c : Continuation} (h : c.precedence ≤ unaryPrecedence) :
    c.stratum.rank ≤ Stratum.unary.rank := by
  revert h
  rcases c with _ | _ | _ | op
  · decide
  · decide
  · decide
  · cases op <;> decide

/-- The operand to the right of an operator is of the next stratum. -/
theorem above_precedence (op : BinaryOp) :
    Stratum.above (binary op).precedence = op.stratum.tighter := by
  cases op <;> rfl

/-- An operator that binds more tightly than a precedence belongs to the stratum above it. -/
theorem rank_above_le {c : Continuation} {precedence : Nat} (h : precedence < c.precedence) :
    (Stratum.above precedence).rank ≤ c.stratum.rank := by
  have hbound : c.precedence ≤ 7 := by
    rcases c with _ | _ | _ | op
    · decide
    · decide
    · decide
    · cases op <;> decide
  have hcases : ∀ p < 7, p < c.precedence → (Stratum.above p).rank ≤ c.stratum.rank := by
    rcases c with _ | _ | _ | op
    · decide
    · decide
    · decide
    · cases op <;> decide
  exact hcases precedence (by omega) h

/-- The token that begins a continuation. -/
def kind : Continuation → TokenKind
  | .call => .lparen
  | .index => .lbracket
  | .member => .dot
  | .binary op => op.kind

/-- The token that was recognised is the one that is written. -/
theorem eq_kind_of_ofToken? {kind : TokenKind} {c : Continuation} (h : ofToken? kind = some c) :
    kind = c.kind := by
  unfold ofToken? at h
  split at h
  case h_16 => cases h
  all_goals
    obtain rfl := Option.some.inj h
    rfl

theorem isPlain_kind (c : Continuation) : isPlain c.kind := by
  rcases c with _ | _ | _ | op
  · rfl
  · rfl
  · rfl
  · cases op <;> rfl

end Continuation

/-! ### Parts of an expression

What the parser has taken when it has read an operand, a list or a tuple. -/

/-- The operator that comes next, if one does. -/
def next? : List Lexeme → Option Continuation
  | .ok token :: _ => Continuation.ofToken? token.kind
  | _ => none

/-- What is read where a precedence is asked for: an expression of the stratum above it, with no
looser operator on its spine, that goes as far as it can. -/
def IsExpression (precedence : Nat) (tokens : List Token) (rest : List Lexeme) (e : Expr) :
    Prop :=
  ∃ spine, Derives (.above precedence) (tokens.map (·.kind)) e spine ∧
    (∀ c ∈ spine, precedence < c.precedence) ∧ ∀ c ∈ next? rest, c.precedence ≤ precedence

/-- What is known while operators are folded in: the expression is of a stratum that every
operator after it can be folded into. -/
def Climbed (precedence : Nat) (tokens : List Token) (rest : List Lexeme) (e : Expr) : Prop :=
  ∃ s spine, Derives s (tokens.map (·.kind)) e spine ∧
    (Stratum.above precedence).rank ≤ s.rank ∧ (∀ c ∈ spine, precedence < c.precedence) ∧
      ∀ c ∈ next? rest, c.stratum.rank ≤ s.rank

/-- The tokens are these expressions, with commas between them. -/
def IsList (kinds : List TokenKind) (es : List Expr) : Prop :=
  ∃ pieces : List Piece, (∀ piece ∈ pieces, Derives .or piece.kinds piece.tree piece.spine) ∧
    kinds = commas (pieces.map (·.kinds)) ∧ es = pieces.map (·.tree)

theorem isList_nil : IsList [] [] :=
  ⟨[], by simp, rfl, rfl⟩

/-- A list of one expression has no comma. -/
theorem Derives.isList (h : Derives .or kinds e spine) : IsList kinds [e] :=
  ⟨[⟨kinds, e, spine⟩], by simpa using h, by simp [commas], rfl⟩

/-- Every further expression brings a comma. -/
theorem Derives.isList_cons (h : Derives .or kinds e spine) {kinds' : List TokenKind}
    {es : List Expr} (hes : IsList kinds' es) (hne : es ≠ []) :
    IsList (kinds ++ .comma :: kinds') (e :: es) := by
  obtain ⟨pieces, hpieces, rfl, rfl⟩ := hes
  refine ⟨⟨kinds, e, spine⟩ :: pieces, List.forall_mem_cons.mpr ⟨h, hpieces⟩, ?_, rfl⟩
  cases pieces with
  | nil => exact absurd rfl hne
  | cons piece pieces => simp [commas]

variable {inner : Nat → ParseM Expr} {ls : List Lexeme} {precedence : Nat}

/-- Arguments and items: a list in the sense of `IsList`, and the token that closes it. -/
theorem consumes_expressionList {close : TokenKind} (hclose : isPlain close)
    (hinner : ∀ precedence ls, Consumes (inner precedence) ls (IsExpression precedence)) :
    Consumes (expressionList inner close) ls fun tokens _ es =>
      ∃ kinds, tokens.map (·.kind) = kinds ++ [close] ∧ IsList kinds es := by
  -- both kinds of lists end with the token that closes them
  have hend (ls : List Lexeme) (es : List Expr) (before : List Token)
      (hes : IsList (before.map (·.kind)) es) :
      Consumes (do let _ ← expect close; pure es) ls fun tokens _ es =>
        ∃ kinds, (before ++ tokens).map (·.kind) = kinds ++ [close] ∧ IsList kinds es := by
    refine consumes_expect hclose fun token _ _ hkind => consumes_pure ⟨_, ?_, hes⟩
    simp [hkind]
  refine consumes_of_cons fun token more hls => ?_
  subst hls
  refine consumes_check (Consumes.ite (fun _ => ?_) fun _ => ?_)
  · simpa using hend (.ok token :: more) [] [] isList_nil
  · have hitems := consumes_commaSeparated
      (R := fun tokens _ es => IsList (tokens.map (·.kind)) es ∧ es ≠ []) (hinner lowest)
      (fun ⟨_, hx, _⟩ => ⟨hx.isList, by simp⟩)
      (fun ⟨_, hx, _⟩ hcomma hxs => ⟨by
        simpa [hcomma] using hx.isList_cons hxs.1 hxs.2, by simp⟩)
    refine (hitems (.ok token :: more)).bind fun tokens rest es _ hes => ?_
    exact hend rest es tokens hes.1

/-- What follows the first element of a tuple: elements after commas, and perhaps one more
comma. -/
def IsRest (kinds : List TokenKind) (es : List Expr) : Prop :=
  ∃ items tail, kinds = items ++ tail ∧ (tail = [] ∨ tail = [.comma]) ∧ (es = [] → items = []) ∧
    ∀ {first e spine}, Derives .or first e spine → IsList (first ++ items) (e :: es)

/-- A tuple may end with a comma or without. -/
theorem isRest_nil {tail : List TokenKind} (h : tail = [] ∨ tail = [.comma]) : IsRest tail [] :=
  ⟨[], tail, rfl, h, fun _ => rfl, fun hfirst => by simpa using hfirst.isList⟩

/-- Every further element brings the comma before it. -/
theorem Derives.isRest_cons (h : Derives .or kinds e spine) {kinds' : List TokenKind}
    {es : List Expr} (hes : IsRest kinds' es) : IsRest (.comma :: (kinds ++ kinds')) (e :: es) := by
  obtain ⟨items, tail, rfl, htail, -, hitems⟩ := hes
  refine ⟨.comma :: (kinds ++ items), tail, by simp, htail, nofun, fun hfirst => ?_⟩
  exact hfirst.isList_cons (hitems h) (by simp)

/-- The parser takes a comma to tell whether another element may follow. -/
theorem consumes_anotherElement : Consumes anotherElement ls fun tokens _ another =>
    tokens.map (·.kind) = [.comma] ∨ (another = false ∧ tokens = []) := by
  refine consumes_accept rfl (fun comma more _ hcomma => ?_) fun _ _ _ _ => ?_
  · refine consumes_of_cons fun token rest hmore => ?_
    subst hmore
    exact consumes_check (consumes_pure (.inl (by simp [hcomma])))
  · exact consumes_pure (.inr ⟨rfl, rfl⟩)

/-- By induction over the loop: the elements after the first, with the commas before them. -/
theorem consumes_elements
    (hinner : ∀ precedence ls, Consumes (inner precedence) ls (IsExpression precedence)) :
    Consumes (many anotherElement (inner lowest)) ls fun tokens _ es =>
      IsRest (tokens.map (·.kind)) es := by
  refine consumes_many (fun _ => consumes_anotherElement) (hinner lowest) ?_ ?_ ?_ ls
  · rintro before others _ _ _ (hcomma | ⟨hfalse, -⟩) _ hnil
    · rw [(List.append_eq_nil_iff.mp hnil).1] at hcomma
      cases hcomma
    · cases hfalse
  · rintro before _ (hcomma | ⟨-, rfl⟩)
    · exact isRest_nil (.inr hcomma)
    · exact isRest_nil (.inl rfl)
  · rintro before others after _ _ _ _ _ (hcomma | ⟨hfalse, -⟩) ⟨spine, hx, -⟩ hxs
    · simpa [hcomma] using hx.isRest_cons hxs
    · cases hfalse

/-- After the parenthesis comes an expression alone, or a tuple if a comma follows it. -/
theorem consumes_parenthesised {location : Location}
    (hinner : ∀ precedence ls, Consumes (inner precedence) ls (IsExpression precedence)) :
    Consumes (parenthesised inner location) ls fun tokens _ e =>
      Derives .primary (.lparen :: tokens.map (·.kind)) e [] := by
  refine (hinner lowest ls).bind fun tokens rest first _ hfirst => ?_
  obtain ⟨spine, hfirst, -⟩ := hfirst
  refine consumes_of_cons fun next more hrest => ?_
  subst hrest
  refine consumes_check (Consumes.ite (fun hcomma => ?_) fun _ => ?_)
  · refine (consumes_elements hinner).bind fun others rest es hmore hes => ?_
    refine consumes_expect rfl fun close _ hrest hclose => consumes_pure ?_
    obtain ⟨items, tail, hkinds, htail, hnil, hlist⟩ := hes
    obtain ⟨pieces, hpieces, hitems, htrees⟩ := hlist hfirst
    have hlength : pieces.length = es.length + 1 := by
      simpa using (congrArg List.length htrees).symm
    rw [htrees]
    obtain rfl | rfl := htail
    · -- the comma after the first element belongs to a second one
      have hsome : es ≠ [] := by
        intro hes
        rw [hnil hes] at hkinds
        obtain rfl : others = [] := by simpa using hkinds
        rw [List.map_nil, List.nil_append] at hmore
        rw [← hmore] at hrest
        obtain rfl := Except.ok.inj (List.cons.inj hrest).1
        rw [hclose] at hcomma
        cases hcomma
      have hpos := List.length_pos_iff.mpr hsome
      have htuple : Derives .primary _ (.tuple location _) [] := .tuple hpieces (by omega)
      rw [← hitems] at htuple
      simpa [hkinds, hclose] using htuple
    · have htuple : Derives .primary _ (.tuple location _) [] := .tupleComma hpieces (by omega)
      rw [← hitems] at htuple
      simpa [hkinds, hclose] using htuple
  · refine consumes_expect rfl fun close _ _ hclose => consumes_pure ?_
    simpa [hclose] using hfirst.group

/-- What needs no operator to its left can be followed by anything. -/
theorem Derives.climbed {tokens : List Token} {rest : List Lexeme}
    (h : Derives .primary (tokens.map (·.kind)) e []) (precedence : Nat) :
    Climbed precedence tokens rest e := by
  refine ⟨.primary, [], h, ?_, by simp, fun c _ => ?_⟩
  · exact Nat.le_trans (Stratum.rank_above_le precedence) (by decide)
  · exact Nat.le_trans c.rank_stratum_le_suffixed (by decide)

/-- The operand of a unary operator is of the unary stratum, so another unary operator may
follow. -/
theorem consumes_unary {op : UnaryOp} {location : Location} {token : Token}
    (hinner : ∀ precedence ls, Consumes (inner precedence) ls (IsExpression precedence))
    (hkind : token.kind = op.kind) (precedence : Nat) :
    Consumes (do return .unary location op (← inner unaryPrecedence)) ls fun others =>
      Climbed precedence (token :: others) := by
  refine (hinner unaryPrecedence ls).bind fun tokens rest e _ he => consumes_pure ?_
  obtain ⟨spine, he, -, hnext⟩ := he
  refine ⟨.unary, [], ?_, Stratum.rank_above_le precedence, by simp, fun c hc => ?_⟩
  · simpa [hkind] using Derives.unary he
  · exact Continuation.rank_stratum_le_unary (hnext c hc)

/-- One case for each token that an expression can begin with. -/
theorem consumes_operand
    (hinner : ∀ precedence ls, Consumes (inner precedence) ls (IsExpression precedence))
    (precedence : Nat) : Consumes (operand inner) ls (Climbed precedence) := by
  -- an operand of one token
  have hprimary {token : Token} {more : List Lexeme} {e : Expr}
      (h : Derives .primary [token.kind] e []) :
      Consumes (pure e) more fun others => Climbed precedence (token :: others) :=
    consumes_pure (Derives.climbed (by simpa using h) precedence)
  refine consumes_of_cons fun token more hls => ?_
  subst hls
  cases hkind : token.kind with
  | integer value =>
    refine consumes_advance (by rw [hkind]; rfl) ?_
    simp only [hkind]
    exact hprimary (hkind ▸ .integer)
  | float value =>
    refine consumes_advance (by rw [hkind]; rfl) ?_
    simp only [hkind]
    exact hprimary (hkind ▸ .float)
  | kwTrue =>
    refine consumes_advance (by rw [hkind]; rfl) ?_
    simp only [hkind]
    exact hprimary (hkind ▸ .truth)
  | kwFalse =>
    refine consumes_advance (by rw [hkind]; rfl) ?_
    simp only [hkind]
    exact hprimary (hkind ▸ .falsehood)
  | identifier name =>
    refine consumes_advance (by rw [hkind]; rfl) ?_
    simp only [hkind]
    exact hprimary (hkind ▸ .identifier)
  | string text =>
    -- a string is taken and added to the pool in one step
    refine consumes_advance_intern hkind (by simp only [hkind]; rfl) ?_
    exact hprimary (hkind ▸ .string)
  | minus =>
    refine consumes_advance (by rw [hkind]; rfl) ?_
    simp only [hkind]
    exact consumes_unary hinner hkind precedence
  | bang =>
    refine consumes_advance (by rw [hkind]; rfl) ?_
    simp only [hkind]
    exact consumes_unary hinner hkind precedence
  | lparen =>
    refine consumes_advance (by rw [hkind]; rfl) ?_
    simp only [hkind]
    refine (consumes_parenthesised hinner).weaken fun tokens rest e he => ?_
    exact Derives.climbed (by simpa [hkind] using he) precedence
  | lbracket =>
    refine consumes_advance (by rw [hkind]; rfl) ?_
    simp only [hkind]
    refine (consumes_expressionList rfl hinner).bind fun tokens rest es _ hes => consumes_pure ?_
    obtain ⟨kinds, hkinds, pieces, hpieces, rfl, rfl⟩ := hes
    exact Derives.climbed (by simpa [hkind, hkinds] using .array hpieces) precedence
  | _ => exact consumes_advance_throw (e := .unexpected .expression token) (by simp only [hkind])

/-! ### Climbing

The loop that folds operators in, and the two parsers that call each other. -/

/-- An operator that binds tightly enough is folded in, and the expression can be climbed on. -/
theorem consumes_extend {c : Continuation} {left : Expr} {before : List Token} {token : Token}
    {more : List Lexeme}
    (hinner : ∀ precedence ls, Consumes (inner precedence) ls (IsExpression precedence))
    (hleft : Climbed precedence before (.ok token :: more) left)
    (hc : Continuation.ofToken? token.kind = some c) (hprecedence : precedence < c.precedence) :
    Consumes (extend inner left c) (.ok token :: more) fun tokens =>
      Climbed precedence (before ++ tokens) := by
  obtain ⟨s, spine, hleft, -, hspine, hnext⟩ := hleft
  -- the expression before is of the stratum that the operator extends
  replace hleft := hleft.loosen (hnext c hc)
  have hkind := Continuation.eq_kind_of_ofToken? hc
  have habove := Continuation.rank_above_le hprecedence
  have hspine' : ∀ d ∈ spine ++ [c], precedence < d.precedence := by
    simpa [or_imp, forall_and] using ⟨hspine, hprecedence⟩
  refine consumes_advance (hkind ▸ c.isPlain_kind) ?_
  cases c with
  | call =>
    cases left with
    | identifier location name =>
      refine (consumes_expressionList rfl hinner).bind fun tokens rest es _ hes => consumes_pure ?_
      obtain ⟨kinds, hkinds, pieces, hpieces, rfl, rfl⟩ := hes
      refine ⟨.suffixed, [.call], ?_, habove, by simpa using hprecedence,
        fun d _ => d.rank_stratum_le_suffixed⟩
      simpa [Continuation.kind, hkind, hkinds] using Derives.call (hleft.isCallee rfl) hpieces
    | _ => exact consumes_throw
  | index =>
    refine (hinner lowest more).bind fun tokens rest e _ he => ?_
    obtain ⟨_, he, -⟩ := he
    refine consumes_expect rfl fun close _ _ hclose => consumes_pure ?_
    refine ⟨.suffixed, spine ++ [.index], ?_, habove, hspine',
      fun d _ => d.rank_stratum_le_suffixed⟩
    simpa [Continuation.kind, hkind, hclose] using Derives.index hleft he
  | member =>
    refine consumes_expectName fun field _ name _ hname => consumes_pure ?_
    refine ⟨.suffixed, spine ++ [.member], ?_, habove, hspine',
      fun d _ => d.rank_stratum_le_suffixed⟩
    simpa [Continuation.kind, hkind, hname] using Derives.member hleft
  | binary op =>
    refine (hinner _ more).bind fun tokens rest right _ hright => consumes_pure ?_
    obtain ⟨_, hright, -, hrest⟩ := hright
    rw [Continuation.above_precedence] at hright
    refine ⟨op.stratum, spine ++ [.binary op], ?_, habove, hspine',
      fun d hd => Continuation.rank_stratum_le (hrest d hd)⟩
    simpa [Continuation.kind, hkind] using Derives.binary hleft hright

/-- Where no operator binds tightly enough, the expression is complete. -/
theorem Climbed.isExpression {tokens : List Token} {rest : List Lexeme}
    (h : Climbed precedence tokens rest e) (hend : ∀ c ∈ next? rest, c.precedence ≤ precedence) :
    IsExpression precedence tokens rest e := by
  obtain ⟨s, spine, he, habove, hspine, -⟩ := h
  exact ⟨spine, he.loosen habove, hspine, hend⟩

/-- Climbing either ends here or folds in the next operator. -/
theorem consumes_continuation {left : Expr} {f : Option Continuation → ParseM Expr}
    {before : List Token} (hleft : Climbed precedence before ls left)
    (hend : f none = pure left)
    (hstep : ∀ token more c, ls = .ok token :: more → Continuation.ofToken? token.kind = some c →
      precedence < c.precedence → Consumes (f (some c)) ls fun tokens =>
        IsExpression precedence (before ++ tokens)) :
    Consumes (continuation? precedence >>= f) ls fun tokens =>
      IsExpression precedence (before ++ tokens) := by
  refine consumes_of_cons fun token more hls => ?_
  have hfold := hstep token more
  subst hls
  rw [continuation?, bind_assoc]
  refine consumes_peek ?_
  rw [pure_bind]
  -- an operator that does not bind tightly enough is left to the caller
  cases hc : (Continuation.ofToken? token.kind).filter (precedence < ·.precedence) with
  | none =>
    have hweak : ∀ c ∈ next? (.ok token :: more), c.precedence ≤ precedence := fun c hc' => by
      simpa using Option.filter_eq_none_iff.mp hc c hc'
    rw [hend]
    exact consumes_pure (by simpa using hleft.isExpression hweak)
  | some c =>
    obtain ⟨hc', hprecedence⟩ := Option.filter_eq_some_iff.mp hc
    exact hfold c rfl hc' (by simpa using hprecedence)

/-- What an expression is, with any number of levels. The two parsers call each other with fewer
levels. -/
theorem consumes_expression (levels precedence : Nat) (ls : List Lexeme) :
    Consumes (expression levels precedence) ls (IsExpression precedence) := by
  -- climbing and reading call each other with one level fewer, so both are proved together
  suffices hboth : (∀ precedence ls,
      Consumes (expression levels precedence) ls (IsExpression precedence)) ∧
      ∀ precedence ls before left, Climbed precedence before ls left →
        Consumes (climb levels precedence left) ls fun tokens =>
          IsExpression precedence (before ++ tokens) from hboth.1 precedence ls
  clear precedence ls
  induction levels with
  | zero =>
    refine ⟨fun _ _ => ?_, fun precedence ls before left hleft => ?_⟩
    · rw [expression]
      exact consumes_fail
    · rw [climb]
      exact consumes_continuation hleft rfl fun _ _ _ _ _ _ => consumes_fail
  | succ levels ih =>
    obtain ⟨hexpression, hclimb⟩ := ih
    refine ⟨fun precedence ls => ?_, fun precedence ls before left hleft => ?_⟩
    · rw [expression]
      exact (consumes_operand hexpression precedence).bind fun before rest left _ hleft =>
        hclimb precedence rest before left hleft
    · rw [climb]
      refine consumes_continuation hleft rfl fun token more c hls hc hprecedence => ?_
      subst hls
      refine (consumes_extend hexpression hleft hc hprecedence).bind
        fun tokens rest left' _ hleft' => ?_
      simpa [List.append_assoc] using hclimb precedence rest _ left' hleft'

/-- An expression that is parsed derives in the grammar from exactly the tokens that were taken.
The operators on its spine all bind more tightly than the context asks for, and no such operator
is left. -/
theorem expression_derives {levels precedence : Nat} {ls : List Lexeme} {p p' : Parser}
    {e : Expr} (hp : p.At ls) (hrun : expression levels precedence p = .ok e p') :
    ∃ (tokens : List Token) (rest : List Lexeme) (spine : List Continuation),
      ls = tokens.map .ok ++ rest ∧ p'.At rest ∧
      Derives (.above precedence) (tokens.map (·.kind)) e spine ∧
      (∀ c ∈ spine, precedence < c.precedence) ∧
      ∀ c ∈ Continuation.ofToken? p'.current.kind, c.precedence ≤ precedence := by
  obtain ⟨tokens, rest, hls, hp', -, spine, he, hspine, hnext⟩ :=
    consumes_expression levels precedence ls p p' e hp hrun
  obtain ⟨more, rfl⟩ := hp'.eq_cons
  exact ⟨tokens, _, spine, hls, hp', he, hspine, hnext⟩

/-- `-a * b + 1`, read where a sum may stand. -/
theorem expression_derives_product :
    let ls : List Lexeme := [.minus, .identifier "a", .star, .identifier "b", .plus, .integer 1,
      .endOfInput].map fun kind => .ok ⟨kind, ⟨1, 1⟩⟩
    let p : Parser := ⟨⟨.minus, ⟨1, 1⟩⟩, ls.tail, .empty 8⟩
    p.At ls ∧ ∃ e p', expression 3 5 p = .ok e p' ∧
      ∃ (tokens : List Token) (rest : List Lexeme) (spine : List Continuation),
        ls = tokens.map .ok ++ rest ∧ p'.At rest ∧
        Derives .product (tokens.map (·.kind)) e spine ∧ (∀ c ∈ spine, 5 < c.precedence) ∧
        ∀ c ∈ Continuation.ofToken? p'.current.kind, c.precedence ≤ 5 := by
  intro ls p
  have hscan : IsScan ls :=
    .cons rfl (.cons rfl (.cons rfl (.cons rfl (.cons rfl (.cons rfl (.last rfl))))))
  have hp : p.At ls := ⟨hscan, rfl, rfl⟩
  obtain ⟨e, p', hrun⟩ : ∃ e p', expression 3 5 p = .ok e p' := ⟨_, _, rfl⟩
  exact ⟨hp, e, p', hrun, expression_derives hp hrun⟩

end Parse

end WasmCompiler
