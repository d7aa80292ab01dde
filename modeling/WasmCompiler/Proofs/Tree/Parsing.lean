import WasmCompiler.Proofs.Effects
import WasmCompiler.Proofs.Tree.Operations
import WasmCompiler.Proofs.Tree.Parts

/-!
# What a parser makes

`Makes I m Q` says that the parser `m`, from a state where `I` holds, ends in such a state again,
keeps the addresses of the string literals before it, and that its result satisfies `Q`. A result
may be mentioned together with a pool only in a way that more literals do not spoil (`Lasting`), so
what was said of a part is still true when the whole has been read.

There is one lemma for each way to put parsers together. Of every parser it is known that it keeps
the invariant and the literals (`Built.makes`); the lemmas about those whose results matter follow
their definitions. They are generic in what is known of expressions:
`makes_expression` asks only what an operand and one more operator contribute, and `makes_program`
carries what expressions have to all expressions of a program.
-/

namespace WasmCompiler

/-- Whether a pool has all literals of another at the same addresses. -/
def StringPool.Grows (pool pool' : StringPool) : Prop :=
  ∀ text offset, pool.offset? text = some offset → pool'.offset? text = some offset

theorem StringPool.Grows.refl (pool : StringPool) : pool.Grows pool :=
  fun _ _ h => h

theorem StringPool.Grows.trans {a b c : StringPool} (h : a.Grows b) (h' : b.Grows c) :
    a.Grows c :=
  fun text offset ha => h' text offset (h text offset ha)

namespace Parse

variable {α β : Type}

/-- What is true of a result and a pool stays true when the pool grows. -/
def Lasting (Q : StringPool → α → Prop) : Prop :=
  ∀ pool pool' a, pool.Grows pool' → Q pool a → Q pool' a

/-- What does not mention the pool lasts. -/
theorem lasting_const (Q : α → Prop) : Lasting fun _ a => Q a :=
  fun _ _ _ _ h => h

/-- What lasts of each element lasts of all. -/
theorem Lasting.forall_mem {Q : StringPool → α → Prop} (h : Lasting Q) :
    Lasting fun pool (xs : List α) => ∀ x ∈ xs, Q pool x :=
  fun _ _ _ hgrows hall x hx => h _ _ x hgrows (hall x hx)

/-- What holds from some pool on. -/
theorem lasting_later (Q : StringPool → α → Prop) :
    Lasting fun pool a => ∀ pool', pool.Grows pool' → Q pool' a :=
  fun _ _ _ hgrows h pool hgrows' => h pool (hgrows.trans hgrows')

/-- The parser keeps the invariant and the literals, and its results have the property. -/
def Makes (I : Parser → Prop) (m : ParseM α) (Q : StringPool → α → Prop) : Prop :=
  ∀ p p' a, m p = .ok a p' → I p →
    I p' ∧ p.strings.Grows p'.strings ∧ Q p'.strings a

/-- The operations that move a parser keep the invariant. -/
structure Invariant (I : Parser → Prop) : Prop where
  advance : ∀ {p p' : Parser} {token : Token}, Parse.advance p = .ok token p' → I p → I p'
  intern : ∀ {p p' : Parser} {text : String} {location : Location},
    Parse.intern text location p = .ok () p' → I p → I p'

variable {I : Parser → Prop} {Q : StringPool → α → Prop} {R : StringPool → β → Prop}

/-! ### Putting parsers together

A property is asked of a result and of the pool that the parser leaves. -/

theorem Makes.weaken {T : StringPool → α → Prop} {m : ParseM α} (hm : Makes I m Q)
    (h : ∀ pool a, Q pool a → T pool a) : Makes I m T := by
  intro p p' a hrun hI
  obtain ⟨hI', hgrows, hQ⟩ := hm p p' a hrun hI
  exact ⟨hI', hgrows, h _ _ hQ⟩

theorem Makes.pure {a : α} (h : ∀ pool, Q pool a) : Makes I (pure a) Q := by
  intro p p' b hrun hI
  obtain ⟨rfl, rfl⟩ := EStateM.pure_eq_ok_iff.mp hrun
  exact ⟨hI, .refl _, h _⟩

theorem Makes.throw {e : ParseError} : Makes I (throw e : ParseM α) Q :=
  fun _ _ _ hrun => absurd hrun EStateM.throw_ne_ok

/-- What the first parser made is known while the second one runs. -/
theorem Makes.bind {m : ParseM α} {f : α → ParseM β} (hQ : Lasting Q) (hm : Makes I m Q)
    (hf : ∀ a, Makes I (f a) fun pool b => Q pool a → R pool b) : Makes I (m >>= f) R := by
  intro p p' b hrun hI
  obtain ⟨a, q, hfirst, hrest⟩ := EStateM.bind_eq_ok_iff.mp hrun
  obtain ⟨hIq, hgrows, hQa⟩ := hm p q a hfirst hI
  obtain ⟨hI', hgrows', hR⟩ := hf a q p' b hrest hIq
  exact ⟨hI', hgrows.trans hgrows', hR (hQ _ _ a hgrows' hQa)⟩

/-- A first parser of whose result nothing needs to be known. -/
theorem Makes.seq {m : ParseM α} {f : α → ParseM β} (hm : Makes I m fun _ _ => True)
    (hf : ∀ a, Makes I (f a) R) : Makes I (m >>= f) R :=
  Makes.bind (lasting_const _) hm fun a => (hf a).weaken fun _ _ h _ => h

/-- What the first parser made is already known when the second one is chosen. -/
theorem Makes.given {C : α → Prop} {m : ParseM α} {f : α → ParseM β}
    (hm : Makes I m fun _ a => C a) (hf : ∀ a, C a → Makes I (f a) R) : Makes I (m >>= f) R := by
  intro p p' b hrun hI
  obtain ⟨a, q, hfirst, hrest⟩ := EStateM.bind_eq_ok_iff.mp hrun
  obtain ⟨hIq, hgrows, hC⟩ := hm p q a hfirst hI
  obtain ⟨hI', hgrows', hR⟩ := hf a hC q p' b hrest hIq
  exact ⟨hI', hgrows.trans hgrows', hR⟩

/-- What is asked of the changed result is asked of the result. -/
theorem Makes.map {m : ParseM α} {f : α → β} (hm : Makes I m fun pool a => R pool (f a)) :
    Makes I (f <$> m) R := by
  intro p p' b hrun hI
  obtain ⟨a, hfirst, rfl⟩ := EStateM.map_eq_ok_iff.mp hrun
  exact hm p p' a hfirst hI

/-- The condition is known in each branch. -/
theorem Makes.ite {c : Prop} [Decidable c] {m m' : ParseM α} (hm : c → Makes I m Q)
    (hm' : ¬c → Makes I m' Q) : Makes I (if c then m else m') Q := by
  split
  · exact hm ‹_›
  · exact hm' ‹_›

/-! ### Tokens

None of these makes anything but what the current token says. -/

theorem makes_peek : Makes I peek fun _ _ => True := by
  intro p p' a hrun hI
  obtain ⟨rfl, rfl⟩ := EStateM.Result.ok.inj hrun
  exact ⟨hI, .refl _, trivial⟩

/-- There is at least one round, because a text has at least one lexeme. -/
theorem makes_rounds : Makes I rounds fun _ n => 0 < n := by
  intro p p' n hrun hI
  obtain ⟨rfl, rfl⟩ := EStateM.Result.ok.inj hrun
  exact ⟨hI, .refl _, Nat.succ_pos _⟩

/-- Taking a token touches no literal. -/
theorem strings_advance {p p' : Parser} {token : Token} (h : advance p = .ok token p') :
    token = p.current ∧ p'.strings = p.strings := by
  unfold advance at h
  split at h
  · obtain ⟨rfl, rfl⟩ := EStateM.Result.ok.inj h
    exact ⟨rfl, rfl⟩
  · obtain ⟨rfl, rfl⟩ := EStateM.Result.ok.inj h
    exact ⟨rfl, rfl⟩
  · cases h

/-- The token that is taken was the current one of a state where the invariant holds. -/
theorem makes_advance (hI : Invariant I) :
    Makes I advance fun _ token => ∃ p, I p ∧ p.current = token := by
  intro p p' token hrun hp
  obtain ⟨rfl, hstrings⟩ := strings_advance hrun
  refine ⟨hI.advance hrun hp, ?_, p, hp, rfl⟩
  rw [hstrings]
  exact .refl _

theorem makes_fail (what : Malformed) : Makes I (fail what : ParseM α) Q :=
  Makes.seq makes_peek fun _ => Makes.throw

theorem makes_unexpected (wanted : Wanted) : Makes I (unexpected wanted : ParseM α) Q :=
  Makes.seq makes_peek fun _ => Makes.throw

/-- A literal that has been put into the pool has an address. -/
theorem makes_intern (hI : Invariant I) (text : String) (location : Location) :
    Makes I (intern text location) fun pool _ => (pool.offset? text).isSome := by
  intro p p' u hrun hp
  refine ⟨hI.intern hrun hp, ?_⟩
  unfold intern at hrun
  split at hrun
  · rename_i offset strings hintern
    obtain ⟨-, rfl⟩ := EStateM.Result.ok.inj hrun
    refine ⟨fun other k hother => ?_, ?_⟩
    · exact StringPool.offset?_intern?_of_eq_some hintern hother
    · simp [StringPool.offset?_of_intern? hintern]
  · cases hrun

/-- Whatever it makes, an operation keeps the invariant and the literals. -/
theorem Built.makes (hI : Invariant I) {m : ParseM α} (hm : Built m) :
    Makes I m fun _ _ => True := by
  induction hm with
  | pure => exact Makes.pure fun _ => trivial
  | throw => exact Makes.throw
  | bind _ _ ihm ihf => exact Makes.seq ihm ihf
  | advance => exact (makes_advance hI).weaken fun _ _ _ => trivial
  | peek => exact makes_peek
  | rounds => exact makes_rounds.weaken fun _ _ _ => trivial
  | intern text location => exact (makes_intern hI text location).weaken fun _ _ _ => trivial

/-! ### Repetition

The property of the items has to last while the others are read. -/

/-- By induction over the rounds; the items before still have the property when the last one has
been read. -/
theorem makes_manyUpTo {more : ParseM Bool} {item : ParseM α} (hQ : Lasting Q)
    (hmore : Makes I more fun _ _ => True) (hitem : Makes I item Q) (n : Nat) :
    Makes I (manyUpTo more item n) fun pool xs => ∀ x ∈ xs, Q pool x := by
  induction n with
  | zero => exact Makes.pure fun _ => by simp
  | succ n ih =>
    refine Makes.seq hmore fun _ => Makes.ite (fun _ => ?_) fun _ => ?_
    · refine Makes.bind hQ hitem fun x => ?_
      refine Makes.bind hQ.forall_mem ih fun xs => Makes.pure fun pool hxs hx => ?_
      exact List.forall_mem_cons.mpr ⟨hx, hxs⟩
    · exact Makes.pure fun _ => by simp

theorem makes_many {more : ParseM Bool} {item : ParseM α} (hQ : Lasting Q)
    (hmore : Makes I more fun _ _ => True) (hitem : Makes I item Q) :
    Makes I (many more item) fun pool xs => ∀ x ∈ xs, Q pool x :=
  Makes.bind (lasting_const _) makes_rounds fun n =>
    (makes_manyUpTo hQ hmore hitem n).weaken fun _ _ h _ => h

/-- By induction over the rounds. With one round there is an item. -/
theorem makes_commaSeparatedUpTo (hI : Invariant I) {item : ParseM α} (hQ : Lasting Q)
    (hitem : Makes I item Q) (n : Nat) :
    Makes I (commaSeparatedUpTo item n) fun pool xs => (0 < n → xs ≠ []) ∧ ∀ x ∈ xs, Q pool x := by
  induction n with
  | zero => exact Makes.pure fun _ => by simp
  | succ n ih =>
    refine Makes.bind hQ hitem fun x => ?_
    refine Makes.seq ((built_accept _).makes hI) fun _ => Makes.ite (fun _ => ?_) fun _ => ?_
    · have hall := ih.weaken fun _ _ h => h.2
      refine Makes.bind hQ.forall_mem hall fun xs => Makes.pure fun pool hxs hx => ?_
      exact ⟨fun _ => by simp, List.forall_mem_cons.mpr ⟨hx, hxs⟩⟩
    · exact Makes.pure fun pool hx => ⟨fun _ => by simp, by simpa using hx⟩

/-- There is at least one item, because there is at least one round. -/
theorem makes_commaSeparated (hI : Invariant I) {item : ParseM α} (hQ : Lasting Q)
    (hitem : Makes I item Q) :
    Makes I (commaSeparated item) fun pool xs => xs ≠ [] ∧ ∀ x ∈ xs, Q pool x :=
  Makes.bind (lasting_const _) makes_rounds fun n =>
    (makes_commaSeparatedUpTo hI hQ hitem n).weaken fun _ _ h hn => ⟨h.1 hn, h.2⟩

/-! ### Expressions

A property `Q` of whole expressions, a property `P` of operands, and one for each level in
between. -/

section Expressions

variable {inner : Nat → ParseM Expr} {Q P P' : StringPool → Expr → Prop}

/-- What an operand has is `P`, if the expressions in it have `Q`. -/
structure OperandRules (I : Parser → Prop) (Q P : StringPool → Expr → Prop) : Prop where
  integer : ∀ {pool p location value}, I p → p.current.kind = .integer value →
    P pool (.integer location value)
  truth : ∀ {pool location} (b : Bool), P pool (.integer location (if b then 1 else 0))
  float : ∀ {pool location value}, P pool (.float location value)
  string : ∀ {pool location text}, (pool.offset? text).isSome → P pool (.string location text)
  identifier : ∀ {pool location name}, P pool (.identifier location name)
  unary : ∀ {pool location op operand}, Q pool operand → P pool (.unary location op operand)
  group : ∀ {pool e}, Q pool e → P pool e
  array : ∀ {pool location items}, (∀ e ∈ items, Q pool e) → P pool (.array location items)
  tuple : ∀ {pool location items}, (∀ e ∈ items, Q pool e) → P pool (.tuple location items)

/-- What an expression with one more operator has is `P'`, if the one before had `P` and the
expressions in the operator have `Q`. -/
structure ExtensionRules (Q P P' : StringPool → Expr → Prop) : Prop where
  call : ∀ {pool location callee args}, (∀ e ∈ args, Q pool e) →
    P' pool (.call location callee args)
  index : ∀ {pool location base index}, P pool base → Q pool index →
    P' pool (.index location base index)
  member : ∀ {pool location base name}, P pool base → P' pool (.member location base name)
  binary : ∀ {pool location op left right}, P pool left → Q pool right →
    P' pool (.binary location op left right)

/-- An empty list has nothing to show. -/
theorem makes_expressionList (hI : Invariant I) (hQ : Lasting Q)
    (hinner : ∀ precedence, Makes I (inner precedence) Q) (close : TokenKind) :
    Makes I (expressionList inner close) fun pool es => ∀ e ∈ es, Q pool e := by
  have hitems : Makes I (commaSeparated (inner lowest)) fun pool es => ∀ e ∈ es, Q pool e :=
    (makes_commaSeparated hI hQ (hinner lowest)).weaken fun _ _ h => h.2
  have hclose (es : List Expr) :
      Makes I (do let _ ← expect close; pure es) fun pool es' =>
        (∀ e ∈ es, Q pool e) → ∀ e ∈ es', Q pool e :=
    Makes.seq ((built_expect close).makes hI) fun _ => Makes.pure fun _ h => h
  refine Makes.seq ((built_check close).makes hI) fun _ => Makes.ite (fun _ => ?_) fun _ => ?_
  · exact Makes.bind hQ.forall_mem (Makes.pure fun _ e he => by simp at he) hclose
  · exact Makes.bind hQ.forall_mem hitems hclose

/-- A group is the expression in it; a comma makes it a tuple. -/
theorem makes_parenthesised (hI : Invariant I) (hQ : Lasting Q) (rules : OperandRules I Q P)
    (hinner : ∀ precedence, Makes I (inner precedence) Q) (location : Location) :
    Makes I (parenthesised inner location) P := by
  refine Makes.bind hQ (hinner lowest) fun first => ?_
  refine Makes.seq ((built_check _).makes hI) fun _ => Makes.ite (fun _ => ?_) fun _ => ?_
  · -- a comma makes it a tuple
    refine Makes.bind hQ.forall_mem (makes_many hQ (built_anotherElement.makes hI) (hinner lowest))
      fun others => ?_
    refine Makes.seq ((built_expect _).makes hI) fun _ => Makes.pure fun pool hothers hfirst => ?_
    exact rules.tuple (List.forall_mem_cons.mpr ⟨hfirst, hothers⟩)
  · refine Makes.seq ((built_expect _).makes hI) fun _ => Makes.pure fun _ hfirst => ?_
    exact rules.group hfirst

/-- One rule for each kind of operand. A string is put into the pool here, and so it has an
address. -/
theorem makes_operand (hI : Invariant I) (hQ : Lasting Q) (rules : OperandRules I Q P)
    (hinner : ∀ precedence, Makes I (inner precedence) Q) : Makes I (operand inner) P := by
  have hunary (op : UnaryOp) (location : Location) :
      Makes I (do return .unary location op (← inner unaryPrecedence)) P :=
    Makes.bind hQ (hinner _) fun _ => Makes.pure fun _ h => rules.unary h
  refine Makes.bind (lasting_const _) (makes_advance hI) fun token => ?_
  split
  · rename_i value hkind
    refine Makes.pure fun pool hcurrent => ?_
    obtain ⟨p, hp, rfl⟩ := hcurrent
    exact rules.integer hp hkind
  · exact Makes.pure fun _ _ => rules.float
  · exact Makes.pure fun _ _ => rules.truth true
  · exact Makes.pure fun _ _ => rules.truth false
  · -- the literal is in the pool before the expression is made
    rename_i text hkind
    refine Makes.bind (fun _ _ _ hgrows h => ?_) (makes_intern hI text token.location)
      fun _ => Makes.pure fun _ h _ => rules.string h
    obtain ⟨offset, hoffset⟩ := Option.isSome_iff_exists.mp h
    rw [hgrows text offset hoffset]
    rfl
  · exact Makes.pure fun _ _ => rules.identifier
  · exact (hunary .negate token.location).weaken fun _ _ h _ => h
  · exact (hunary .not token.location).weaken fun _ _ h _ => h
  · exact (makes_parenthesised hI hQ rules hinner token.location).weaken fun _ _ h _ => h
  · exact Makes.bind hQ.forall_mem (makes_expressionList hI hQ hinner .rbracket) fun _ =>
      Makes.pure fun _ h _ => rules.array h
  · exact Makes.throw

/-- What the expression to the left has may also be known only later. -/
theorem makes_extend (hI : Invariant I) (hQ : Lasting Q) (rules : ExtensionRules Q P P')
    (hinner : ∀ precedence, Makes I (inner precedence) Q) (left : Expr) (c : Continuation) :
    Makes I (extend inner left c) fun pool e =>
      ∀ pool', pool.Grows pool' → P pool' left → P' pool' e := by
  refine Makes.seq (Built.advance.makes hI) fun token => ?_
  cases c with
  | call =>
    cases left with
    | identifier location callee =>
      refine Makes.bind hQ.forall_mem (makes_expressionList hI hQ hinner .rparen) fun args => ?_
      refine Makes.pure fun pool hargs pool' hgrows _ => ?_
      exact rules.call (hQ.forall_mem _ _ args hgrows hargs)
    | _ => exact Makes.throw
  | index =>
    refine Makes.bind hQ (hinner lowest) fun index => ?_
    refine Makes.seq ((built_expect _).makes hI) fun _ => ?_
    refine Makes.pure fun pool hindex pool' hgrows hleft => ?_
    exact rules.index hleft (hQ _ _ index hgrows hindex)
  | member =>
    exact Makes.seq ((built_expectName _).makes hI) fun _ => Makes.pure fun _ _ _ hleft =>
      rules.member hleft
  | binary op =>
    -- the left operand was made earlier, and the pool has only grown since
    refine Makes.bind hQ (hinner _) fun right => Makes.pure fun pool hright pool' hgrows hleft => ?_
    exact rules.binary hleft (hQ _ _ right hgrows hright)

end Expressions

/-- Operators are folded in one by one. `P k` is what the expression has when `k` levels are left
for more of them. -/
theorem makes_climb (hI : Invariant I) {Q P : Nat → StringPool → Expr → Prop}
    (hQ : ∀ k, Lasting (Q k)) (levels : Nat)
    (rules : ∀ k < levels, ExtensionRules (Q k) (P (k + 1)) (P k))
    (hinner : ∀ k < levels, ∀ precedence, Makes I (expression k precedence) (Q k))
    (precedence : Nat) (left : Expr) :
    Makes I (climb levels precedence left) fun pool e =>
      P levels pool left → ∃ k ≤ levels, P k pool e := by
  induction levels generalizing left with
  | zero =>
    rw [climb]
    refine Makes.seq ((built_continuation? _).makes hI) fun c? => ?_
    cases c? with
    | none => exact Makes.pure fun _ h => ⟨0, Nat.le_refl 0, h⟩
    | some c => exact makes_fail _
  | succ levels ih =>
    rw [climb]
    refine Makes.seq ((built_continuation? _).makes hI) fun c? => ?_
    cases c? with
    | none => exact Makes.pure fun _ h => ⟨levels + 1, Nat.le_refl _, h⟩
    | some c =>
      have hextend := makes_extend hI (hQ levels) (rules levels (Nat.lt_succ_self _))
        (hinner levels (Nat.lt_succ_self _)) left c
      have hclimb (left' : Expr) := ih (fun k hk => rules k (Nat.lt_succ_of_lt hk))
        (fun k hk => hinner k (Nat.lt_succ_of_lt hk)) left'
      refine Makes.bind (lasting_later _) hextend fun left' =>
        (hclimb left').weaken fun pool e h hleft' hleft => ?_
      -- `left'` has what it must have as soon as `left` does
      obtain ⟨k, hk, he⟩ := h (hleft' pool (.refl _) hleft)
      exact ⟨k, Nat.le_succ_of_le hk, he⟩

/-- Expressions with `n` levels have `Q n`, if operands and operators lead there: `P n k` is what an
expression with `n + 1` levels has while `k` of them are left. -/
theorem makes_expression (hI : Invariant I) {Q : Nat → StringPool → Expr → Prop}
    {P : Nat → Nat → StringPool → Expr → Prop} (hQ : ∀ n, Lasting (Q n))
    (hP : ∀ n k, Lasting (P n k)) (operands : ∀ n, OperandRules I (Q n) (P n n))
    (extensions : ∀ n, ∀ k < n, ExtensionRules (Q k) (P n (k + 1)) (P n k))
    (whole : ∀ n k pool e, k ≤ n → P n k pool e → Q (n + 1) pool e) (levels precedence : Nat) :
    Makes I (expression levels precedence) (Q levels) := by
  induction levels using Nat.strongRecOn generalizing precedence with
  | ind levels ih =>
    cases levels with
    | zero =>
      rw [expression]
      exact makes_fail _
    | succ n =>
      rw [expression]
      -- the operand is read one level below, each operator one more below that
      have hoperand := makes_operand hI (hQ n) (operands n) fun precedence =>
        ih n (Nat.lt_succ_self n) precedence
      refine Makes.bind (hP n n) hoperand fun left => ?_
      refine (makes_climb hI hQ n (extensions n)
        (fun k hk precedence => ih k (Nat.lt_succ_of_lt hk) precedence) precedence left).weaken ?_
      intro pool e h hleft
      obtain ⟨k, hk, he⟩ := h hleft
      exact whole n k pool e hk he

/-! ### Statements

Each statement has its expressions made in the order of the text, so what was said of an earlier one
has to last. -/

section Statements

attribute [local simp] Stmt.exprs Stmt.IsRegular

variable {E : StringPool → Expr → Prop}

/-- What is said of a statement: its expressions have the property, and it is regular. -/
def Sound (E : StringPool → Expr → Prop) (pool : StringPool) (s : Stmt) : Prop :=
  (∀ e ∈ s.exprs, E pool e) ∧ s.IsRegular

/-- What is said of a statement lasts if what is said of its expressions does. -/
theorem lasting_sound (hE : Lasting E) : Lasting (Sound E) :=
  fun _ _ _ hgrows h => ⟨fun e he => hE _ _ e hgrows (h.1 e he), h.2⟩

/-- Statements are sound if their expressions have the property and all of them are regular. -/
theorem forall_sound_iff {pool : StringPool} {ss : List Stmt} :
    (∀ s ∈ ss, Sound E pool s) ↔ (∀ e ∈ Stmt.exprsAll ss, E pool e) ∧ Stmt.AllRegular ss := by
  rw [Stmt.forall_mem_exprsAll_iff, Stmt.allRegular_iff]
  exact ⟨fun h => ⟨fun s hs => (h s hs).1, fun s hs => (h s hs).2⟩,
    fun h s hs => ⟨h.1 s hs, h.2 s hs⟩⟩

/-- The parsers of a nesting level make sound statements. -/
structure LevelMakes (I : Parser → Prop) (E : StringPool → Expr → Prop) (l : Level) : Prop where
  statement : Makes I l.statement (Sound E)
  conditional : Makes I l.conditional fun pool s => Sound E pool s ∧ s.isAlternate

variable {inner : Option Level} {levels : Nat}

/-- There is a level to go down to, and it is this one. -/
theorem makes_descend : Makes I (descend inner) fun _ l => inner = some l := by
  cases inner with
  | none => exact makes_fail _
  | some l => exact Makes.pure fun _ => rfl

/-- The statements of a block are those of the next level. -/
theorem makes_block (hI : Invariant I) (hE : Lasting E)
    (hinner : ∀ l, inner = some l → LevelMakes I E l) :
    Makes I (block inner) fun pool ss => ∀ s ∈ ss, Sound E pool s := by
  refine Makes.seq ((built_expect _).makes hI) fun _ => Makes.given makes_descend fun l hl => ?_
  refine Makes.seq (built_skipSemicolons.makes hI) fun _ => ?_
  have hmany := makes_many (lasting_sound hE) ((built_notAt .rbrace).makes hI)
    (hinner l hl).statement
  refine Makes.bind (lasting_sound hE).forall_mem hmany fun ss => ?_
  exact Makes.seq ((built_expect _).makes hI) fun _ => Makes.pure fun _ h => h

/-- A function has the expressions of its body. -/
theorem makes_function (hI : Invariant I) (hE : Lasting E)
    (hinner : ∀ l, inner = some l → LevelMakes I E l) (exported : Bool) :
    Makes I (function inner exported) (Sound E) := by
  have hparams := (built_commaSeparated (built_field .parameterName)).makes hI
  have hbody (token : Token) (header : FunctionHeader) :
      Makes I (do return .function token.location header (← block inner)) (Sound E) :=
    Makes.bind (lasting_sound hE).forall_mem (makes_block hI hE hinner) fun ss =>
      Makes.pure fun _ h => forall_sound_iff.mp h
  refine Makes.seq ((built_expect _).makes hI) fun token => ?_
  refine Makes.seq ((built_expectName _).makes hI) fun name => ?_
  refine Makes.seq ((built_expect _).makes hI) fun _ => ?_
  refine Makes.seq ((built_check _).makes hI) fun _ => ?_
  -- what follows the parameters is the same with and without them
  have hrest (params : List Field) : Makes I (do
      let _ ← expect .rparen
      let returnType ← if ← accept .arrow then some <$> typeName else Pure.pure none
      let body ← block inner
      return .function token.location ⟨name.1, params, returnType, exported⟩ body) (Sound E) := by
    refine Makes.seq ((built_expect _).makes hI) fun _ => ?_
    refine Makes.seq ((built_accept _).makes hI) fun _ => ?_
    refine Makes.ite (fun _ => ?_) fun _ => ?_
    · exact Makes.seq (Makes.map (built_typeName.makes hI)) fun _ => hbody token _
    · exact Makes.seq (Makes.pure fun _ => trivial) fun _ => hbody token _
  refine Makes.ite (fun _ => ?_) fun _ => ?_
  · exact Makes.seq (Makes.pure fun _ => trivial) hrest
  · exact Makes.seq hparams hrest

theorem makes_exportedFunction (hI : Invariant I) (hE : Lasting E)
    (hinner : ∀ l, inner = some l → LevelMakes I E l) :
    Makes I (exportedFunction inner) (Sound E) :=
  Makes.seq ((built_expect _).makes hI) fun _ => Makes.seq ((built_check _).makes hI) fun _ =>
    Makes.ite (fun _ => makes_function hI hE hinner true) fun _ => makes_unexpected _

theorem makes_structDecl (hI : Invariant I) : Makes I structDecl (Sound E) := by
  have hfields := (built_many (built_notAt .rbrace) built_structField).makes hI
  refine Makes.seq ((built_expect _).makes hI) fun token => ?_
  refine Makes.seq ((built_expectName _).makes hI) fun name => ?_
  refine Makes.seq ((built_expect _).makes hI) fun _ => Makes.seq hfields fun fields => ?_
  refine Makes.seq ((built_expect _).makes hI) fun _ => Makes.pure fun _ => ?_
  exact ⟨by simp, by simp⟩

/-- A value that is there is an expression. -/
theorem makes_value (hexpr : Makes I (expression levels lowest) E) :
    Makes I (some <$> expression levels lowest) fun pool value => ∀ e ∈ value.toList, E pool e :=
  Makes.map (hexpr.weaken fun _ _ h => by simpa using h)

theorem makes_noValue :
    Makes I (Pure.pure none) fun pool (value : Option Expr) => ∀ e ∈ value.toList, E pool e :=
  Makes.pure fun _ => by simp

theorem lasting_value (hE : Lasting E) :
    Lasting fun pool (value : Option Expr) => ∀ e ∈ value.toList, E pool e :=
  fun _ _ _ hgrows h e he => hE _ _ e hgrows (h e he)

theorem makes_returnStmt (hI : Invariant I) (hE : Lasting E)
    (hexpr : Makes I (expression levels lowest) E) : Makes I (returnStmt levels) (Sound E) := by
  have hreturn (token : Token) (value : Option Expr) :
      Makes I (do return .ret token.location value) fun pool s =>
        (∀ e ∈ value.toList, E pool e) → Sound E pool s :=
    Makes.pure fun _ h => ⟨h, trivial⟩
  refine Makes.seq ((built_expect _).makes hI) fun token => Makes.seq makes_peek fun _ => ?_
  refine Makes.ite (fun _ => ?_) fun _ => ?_
  · exact Makes.bind (lasting_value hE) makes_noValue (hreturn token)
  · exact Makes.bind (lasting_value hE) (makes_value hexpr) (hreturn token)

/-- A declaration names something, since a list with commas has an item. -/
theorem makes_declaration (hI : Invariant I) (hE : Lasting E)
    (hexpr : Makes I (expression levels lowest) E) : Makes I (declaration levels) (Sound E) := by
  have hbindings := (makes_commaSeparated hI (lasting_const fun _ => True)
    (built_binding.makes hI)).weaken (T := fun _ bindings => bindings ≠ []) fun _ _ h => h.1
  refine Makes.seq (Built.advance.makes hI) fun token => ?_
  refine Makes.given hbindings fun bindings hne => ?_
  have hdeclare (value : Option Expr) :
      Makes I (do return .declare token.location (token.kind = .kwVar) bindings value)
        fun pool s => (∀ e ∈ value.toList, E pool e) → Sound E pool s :=
    Makes.pure fun _ h => ⟨h, hne⟩
  refine Makes.seq ((built_accept _).makes hI) fun _ => Makes.ite (fun _ => ?_) fun _ => ?_
  · exact Makes.bind (lasting_value hE) (makes_value hexpr) hdeclare
  · exact Makes.bind (lasting_value hE) makes_noValue hdeclare

/-- Behind an `else` only these two are read. -/
theorem makes_alternate (hI : Invariant I) (hE : Lasting E)
    (hinner : ∀ l, inner = some l → LevelMakes I E l) :
    Makes I (alternate inner) fun pool s => Sound E pool s ∧ s.isAlternate := by
  refine Makes.seq makes_peek fun token => Makes.ite (fun _ => ?_) fun _ => ?_
  · exact Makes.given makes_descend fun l hl => (hinner l hl).conditional
  · refine Makes.bind (lasting_sound hE).forall_mem (makes_block hI hE hinner) fun ss => ?_
    exact Makes.pure fun _ h => ⟨forall_sound_iff.mp h, rfl⟩

/-- A conditional has its condition, and what its body and its alternate have. -/
theorem sound_conditional {pool : StringPool} {location : Location} {condition : Expr}
    {body : List Stmt} {other : Option Stmt} (hcondition : E pool condition)
    (hbody : ∀ s ∈ body, Sound E pool s)
    (hother : ∀ s ∈ other, Sound E pool s ∧ s.isAlternate) :
    Sound E pool (.conditional location condition body other) := by
  obtain ⟨hexprs, hregular⟩ := forall_sound_iff.mp hbody
  cases other with
  | none =>
    refine ⟨?_, hregular⟩
    rw [Stmt.exprs, List.forall_mem_cons]
    exact ⟨hcondition, hexprs⟩
  | some alternate =>
    obtain ⟨hsound, halternate⟩ := hother alternate rfl
    refine ⟨?_, hregular, halternate, hsound.2⟩
    rw [Stmt.exprs, List.forall_mem_cons, List.forall_mem_append]
    exact ⟨hcondition, hexprs, hsound.1⟩

/-- The alternate is made while the property of the condition and of the body lasts. -/
theorem makes_conditional (hI : Invariant I) (hE : Lasting E)
    (hexpr : Makes I (expression levels lowest) E)
    (hinner : ∀ l, inner = some l → LevelMakes I E l) :
    Makes I (conditional levels inner) fun pool s => Sound E pool s ∧ s.isAlternate := by
  -- what holds of an alternate does not change as the pool grows
  have hlasting : Lasting fun pool (other : Option Stmt) =>
      ∀ s ∈ other, Sound E pool s ∧ s.isAlternate :=
    fun _ _ _ hgrows h s hs => ⟨lasting_sound hE _ _ s hgrows (h s hs).1, (h s hs).2⟩
  refine Makes.seq ((built_expect _).makes hI) fun token => Makes.bind hE hexpr fun condition => ?_
  refine Makes.bind (lasting_sound hE).forall_mem (makes_block hI hE hinner) fun body => ?_
  have hfinish (other : Option Stmt) :
      Makes I (do return .conditional token.location condition body other) fun pool s =>
        (∀ s ∈ other, Sound E pool s ∧ s.isAlternate) → (∀ s ∈ body, Sound E pool s) →
          E pool condition → Sound E pool s ∧ s.isAlternate :=
    Makes.pure fun _ hother hbody hcondition => ⟨sound_conditional hcondition hbody hother, rfl⟩
  refine Makes.seq ((built_accept _).makes hI) fun _ => Makes.ite (fun _ => ?_) fun _ => ?_
  · refine Makes.bind hlasting (Makes.map ?_) hfinish
    exact (makes_alternate hI hE hinner).weaken fun _ _ h s hs => by
      obtain rfl := Option.mem_some.mp hs
      exact h
  · exact Makes.bind hlasting (Makes.pure fun _ s hs => by simp at hs) hfinish

theorem makes_whileLoop (hI : Invariant I) (hE : Lasting E)
    (hexpr : Makes I (expression levels lowest) E)
    (hinner : ∀ l, inner = some l → LevelMakes I E l) :
    Makes I (whileLoop levels inner) (Sound E) := by
  refine Makes.seq ((built_expect _).makes hI) fun token => Makes.bind hE hexpr fun condition => ?_
  refine Makes.bind (lasting_sound hE).forall_mem (makes_block hI hE hinner) fun body => ?_
  refine Makes.pure fun pool hbody hcondition => ?_
  obtain ⟨hexprs, hregular⟩ := forall_sound_iff.mp hbody
  refine ⟨?_, hregular⟩
  rw [Stmt.exprs, List.forall_mem_cons]
  exact ⟨hcondition, hexprs⟩

theorem makes_printStmt (hI : Invariant I) (hE : Lasting E)
    (hexpr : Makes I (expression levels lowest) E) : Makes I (printStmt levels) (Sound E) :=
  Makes.seq ((built_expect _).makes hI) fun _ => Makes.bind hE hexpr fun _ => Makes.pure fun _ h =>
    ⟨by simpa using h, trivial⟩

/-- The target is read before it is known to be one. -/
theorem makes_assignmentOrExpression (hI : Invariant I) (hE : Lasting E)
    (hexpr : Makes I (expression levels lowest) E) :
    Makes I (assignmentOrExpression levels) (Sound E) := by
  refine Makes.seq makes_peek fun start => Makes.bind hE hexpr fun target => ?_
  refine Makes.seq ((built_check _).makes hI) fun _ => Makes.ite (fun _ => ?_) fun _ => ?_
  · have hassign (u : PUnit) : Makes I (do
        let _ ← advance
        let value ← expression levels lowest
        return .assign start.location target value)
        fun pool s => E pool target → Sound E pool s := by
      refine Makes.seq (Built.advance.makes hI) fun _ => Makes.bind hE hexpr fun value => ?_
      exact Makes.pure fun _ hvalue htarget => ⟨by simp [hvalue, htarget], trivial⟩
    refine Makes.ite (fun _ => ?_) fun _ => ?_
    · exact hassign ⟨⟩
    · exact Makes.seq Makes.throw hassign
  · exact Makes.pure fun _ h => ⟨by simpa using h, trivial⟩

/-- One case for each first token; semicolons behind a statement make nothing. -/
theorem makes_statement (hI : Invariant I) (hE : Lasting E)
    (hexpr : Makes I (expression levels lowest) E)
    (hinner : ∀ l, inner = some l → LevelMakes I E l) :
    Makes I (statement levels inner) (Sound E) := by
  -- skipping semicolons makes nothing
  have hskip {m : ParseM Stmt} (hm : Makes I m (Sound E)) :
      Makes I (do let s ← m; skipSemicolons; return s) (Sound E) :=
    Makes.bind (lasting_sound hE) hm fun _ =>
      Makes.seq (built_skipSemicolons.makes hI) fun _ => Makes.pure fun _ h => h
  refine Makes.seq makes_peek fun token => ?_
  dsimp only
  split
  · exact hskip (makes_exportedFunction hI hE hinner)
  · exact hskip (makes_function hI hE hinner false)
  · exact hskip (makes_returnStmt hI hE hexpr)
  · exact hskip (makes_declaration hI hE hexpr)
  · exact hskip (makes_declaration hI hE hexpr)
  · exact hskip ((makes_conditional hI hE hexpr hinner).weaken fun _ _ h => h.1)
  · exact hskip (makes_whileLoop hI hE hexpr hinner)
  · exact hskip (makes_printStmt hI hE hexpr)
  · exact hskip (makes_structDecl hI)
  · exact hskip (Makes.map ((makes_block hI hE hinner).weaken fun _ _ h => forall_sound_iff.mp h))
  · exact hskip (makes_assignmentOrExpression hI hE hexpr)

/-- By induction over the levels, each of which has expressions with as many levels. -/
theorem makes_level (hI : Invariant I) (hE : Lasting E) (n : Nat)
    (hexpr : ∀ k ≤ n, Makes I (expression k lowest) E) : LevelMakes I E (level n) := by
  induction n with
  | zero =>
    have hinner (l : Level) (h : none = some l) : LevelMakes I E l := by cases h
    exact ⟨makes_statement hI hE (hexpr 0 (Nat.le_refl 0)) hinner,
      makes_conditional hI hE (hexpr 0 (Nat.le_refl 0)) hinner⟩
  | succ n ih =>
    have hlevel := ih fun k hk => hexpr k (Nat.le_succ_of_le hk)
    have hinner (l : Level) (h : some (level n) = some l) : LevelMakes I E l := by
      obtain rfl := Option.some.inj h
      exact hlevel
    exact ⟨makes_statement hI hE (hexpr (n + 1) (Nat.le_refl _)) hinner,
      makes_conditional hI hE (hexpr (n + 1) (Nat.le_refl _)) hinner⟩

/-- The expressions of a program have what its expressions have when they are parsed, and its
statements are regular. -/
theorem makes_program (hI : Invariant I) (hE : Lasting E)
    (hexpr : ∀ k ≤ maxNesting, Makes I (expression k lowest) E) :
    Makes I program fun pool program =>
      (∀ e ∈ program.exprs, E pool e) ∧ Stmt.AllRegular program.statements := by
  refine Makes.seq (built_skipSemicolons.makes hI) fun _ => ?_
  have hmany := makes_many (lasting_sound hE) ((built_notAt .endOfInput).makes hI)
    (makes_level hI hE maxNesting hexpr).statement
  exact Makes.bind (lasting_sound hE).forall_mem hmany fun _ => Makes.pure fun _ h =>
    forall_sound_iff.mp h

end Statements

end Parse

end WasmCompiler
