import WasmCompiler.Tree.Parser.Stmt

/-!
# Parsing tokens of known kinds

`Parser.Faces p kinds` says which kinds of tokens a parser has before it, and `Takes` that an
operation succeeds on such tokens: which ones it takes, and what it gives. There is one lemma for
each operation of a parser, so that a longer parse is assembled from them.

`LexesTo` connects a text with the kinds that a parser at its beginning faces.

Strings and repetitions of more than one item are left out here; `Reads` in a later module has them,
at the price of a text that is known as a whole.
-/

namespace WasmCompiler

/-- The kind of a lexeme that is a token. -/
def Lexeme.kind? : Lexeme → Option TokenKind
  | .ok token => some token.kind
  | .error _ => none

/-- The tokens from the current one on are of these kinds; more may follow. -/
def Parser.Faces (p : Parser) (kinds : List TokenKind) : Prop :=
  kinds.map some <+: some p.current.kind :: p.upcoming.map Lexeme.kind?

theorem Parser.Faces.current {p : Parser} {kind : TokenKind} {kinds : List TokenKind}
    (h : p.Faces (kind :: kinds)) : p.current.kind = kind := by
  have hhead : some kind = some p.current.kind := (List.cons_prefix_cons.mp h).1
  exact (Option.some.inj hhead).symm

namespace Parse

variable {α β : Type} {Q : α → Prop} {R : β → Prop} {kind : TokenKind}
  {kinds before middle after : List TokenKind}

/-! ### Successful operations

An operation is run on all parsers that have such tokens before them. -/

/-- At tokens of the kinds `before`, the operation gives something with `Q` and leaves those of
the kinds `after`. It collects no strings. -/
def Takes (m : ParseM α) (before : List TokenKind) (Q : α → Prop) (after : List TokenKind) :
    Prop :=
  ∀ p : Parser, p.Faces before →
    ∃ x p', m p = .ok x p' ∧ Q x ∧ p'.Faces after ∧ p'.strings = p.strings

theorem takes_pure {x : α} (h : Q x) : Takes (pure x) kinds Q kinds :=
  fun p hp => ⟨x, p, rfl, h, hp, rfl⟩

theorem Takes.weaken {Q' : α → Prop} {m : ParseM α} (hm : Takes m before Q after)
    (h : ∀ x, Q x → Q' x) : Takes m before Q' after := by
  intro p hp
  obtain ⟨x, p', hx, hQ, hp', hstrings⟩ := hm p hp
  exact ⟨x, p', hx, h x hQ, hp', hstrings⟩

/-- The second operation runs on the tokens that the first one left, with what the first one
gave. -/
theorem Takes.bind {m : ParseM α} {f : α → ParseM β} (hm : Takes m before Q middle)
    (hf : ∀ x, Q x → Takes (f x) middle R after) : Takes (m >>= f) before R after := by
  intro p hp
  obtain ⟨x, p₁, hx, hQ, hp₁, hstrings₁⟩ := hm p hp
  obtain ⟨y, p₂, hy, hR, hp₂, hstrings₂⟩ := hf x hQ p₁ hp₁
  refine ⟨y, p₂, ?_, hR, hp₂, hstrings₂.trans hstrings₁⟩
  show EStateM.bind m f p = _
  rw [EStateM.bind, hx]
  exact hy

/-- The tokens are those of the operation whose result is changed. -/
theorem Takes.map {m : ParseM α} {f : α → β} (hm : Takes m before Q after)
    (hf : ∀ x, Q x → R (f x)) : Takes (f <$> m) before R after := by
  intro p hp
  obtain ⟨x, p', hx, hQ, hp', hstrings⟩ := hm p hp
  refine ⟨f x, p', ?_, hf x hQ, hp', hstrings⟩
  show EStateM.map f m p = _
  rw [EStateM.map, hx]

/-! ### Tokens

Each looks at one token, and those that take it need a token behind it to go on to. -/

theorem takes_peek : Takes peek (kind :: kinds) (·.kind = kind) (kind :: kinds) :=
  fun p hp => ⟨p.current, p, rfl, hp.current, hp, rfl⟩

theorem takes_check (wanted : TokenKind) :
    Takes (check wanted) (kind :: kinds) (· = decide (kind = wanted)) (kind :: kinds) :=
  takes_peek.bind fun _ ht => takes_pure (by rw [ht])

/-- The token is taken and the next one is current. -/
theorem takes_advance {next : TokenKind} :
    Takes advance (kind :: next :: kinds) (·.kind = kind) (next :: kinds) := by
  intro p hp
  have hcurrent := hp.current
  obtain ⟨current, upcoming, strings⟩ := p
  have hnext := (List.cons_prefix_cons.mp hp).2
  match upcoming, hnext with
  | [], hnext => exact absurd hnext (by simp)
  | .error e :: rest, hnext =>
    exact absurd (List.cons_prefix_cons.mp hnext).1 (by simp [Lexeme.kind?])
  | .ok token :: rest, hnext =>
    refine ⟨current, ⟨token, dropLexeme (.ok token :: rest), strings⟩, rfl, hcurrent, ?_, rfl⟩
    obtain ⟨htoken, hrest⟩ := List.cons_prefix_cons.mp hnext
    -- the last lexeme is not dropped, but then no more kinds are known
    cases rest with
    | nil =>
      have hnil : kinds = [] := by simpa using hrest
      subst hnil
      exact List.cons_prefix_cons.mpr ⟨htoken, List.nil_prefix⟩
    | cons other rest => exact List.cons_prefix_cons.mpr ⟨htoken, hrest⟩

theorem takes_expect {next : TokenKind} :
    Takes (expect kind) (kind :: next :: kinds) (·.kind = kind) (next :: kinds) :=
  (takes_check kind).bind fun _ hfound => by
    rw [hfound, if_pos (by simp)]
    exact takes_advance

/-- A token that is not there is not taken. -/
theorem takes_accept_other {wanted : TokenKind} (h : kind ≠ wanted) :
    Takes (accept wanted) (kind :: kinds) (· = false) (kind :: kinds) :=
  (takes_check wanted).bind fun _ hfound => by
    rw [hfound, if_neg (by simpa using h)]
    exact takes_pure rfl

theorem takes_expectName {name : String} {next : TokenKind} (wanted : Wanted) :
    Takes (expectName wanted) (.identifier name :: next :: kinds) (·.1 = name) (next :: kinds) :=
  takes_peek.bind fun _ ht => by
    rw [ht]
    exact takes_advance.bind fun _ _ => takes_pure rfl

/-! ### Repetitions

None and one are enough for the texts that are built here. -/

/-- Nothing is taken if there is no item, whatever the number of rounds. -/
theorem Takes.manyUpTo_nil {more : ParseM Bool} {item : ParseM α} (n : Nat)
    (h : Takes more kinds (· = false) kinds) :
    Takes (manyUpTo more item n) kinds (· = []) kinds := by
  cases n with
  | zero => exact takes_pure rfl
  | succ n =>
    refine h.bind fun _ hmore => ?_
    rw [hmore, if_neg (by decide)]
    exact takes_pure rfl

/-- Nothing is taken if there is no item. -/
theorem Takes.many_nil {more : ParseM Bool} {item : ParseM α}
    (h : Takes more kinds (· = false) kinds) : Takes (many more item) kinds (· = []) kinds :=
  fun p hp => h.manyUpTo_nil (p.upcoming.length + 1) p hp

/-- One item, if there are no more after it. -/
theorem Takes.many_one {more : ParseM Bool} {item : ParseM α}
    (hmore : Takes more before (· = true) before) (hitem : Takes item before Q after)
    (hdone : Takes more after (· = false) after) :
    Takes (many more item) before (fun xs => ∃ x, xs = [x] ∧ Q x) after := by
  intro p hp
  refine Takes.bind hmore (fun _ hm => ?_) p hp
  rw [hm, if_pos rfl]
  refine hitem.bind fun x hx => (hdone.manyUpTo_nil _).bind fun xs hxs => ?_
  rw [hxs]
  exact takes_pure ⟨x, rfl, hx⟩

/-- One item, if no comma follows it. -/
theorem Takes.commaSeparated_one {item : ParseM α} (hitem : Takes item before Q (kind :: kinds))
    (hkind : kind ≠ .comma) :
    Takes (commaSeparated item) before (fun xs => ∃ x, xs = [x] ∧ Q x) (kind :: kinds) := by
  intro p hp
  refine Takes.bind hitem (fun x hx => ?_) p hp
  refine (takes_accept_other hkind).bind fun _ hcomma => ?_
  rw [hcomma, if_neg (by decide)]
  exact takes_pure ⟨x, rfl, hx⟩

/-- Where no semicolon stands none is skipped. -/
theorem takes_skipSemicolons (h : kind ≠ .semicolon) :
    Takes skipSemicolons (kind :: kinds) (fun _ => True) (kind :: kinds) :=
  (takes_accept_other h).many_nil.bind fun _ _ => takes_pure trivial

/-- A repetition goes on up to its closing token or to the end of the text. -/
theorem takes_notAt (close : TokenKind) :
    Takes (notAt close) (kind :: kinds) (· = decide (kind ≠ close ∧ kind ≠ .endOfInput))
      (kind :: kinds) :=
  takes_peek.bind fun _ ht => takes_pure (by rw [ht]; simp)

end Parse

/-! ### Lexing

The kinds of a text are put together from its end, one character or token at a time. -/

/-- The lexemes of a text are tokens of these kinds. -/
def LexesTo (cs : List Char) (kinds : List TokenKind) : Prop :=
  ∀ position, (Cursor.mk cs position).scan.map (·.1.kind?) = kinds.map some

theorem lexesTo_nil : LexesTo [] [.endOfInput] := by
  intro position
  rw [Cursor.scan]
  rfl

theorem LexesTo.blank {c : Char} {rest : List Char} {kinds : List TokenKind}
    (h : LexesTo rest kinds) (hblank : Text.isBlank c) : LexesTo (c :: rest) kinds := by
  intro position
  have hskip : (Cursor.mk (c :: rest) position).skip =
      (Cursor.mk rest (position.after c)).skip := by
    simp [Cursor.skip, Cursor.skipBlanks, hblank]
  have hnext : (Cursor.mk (c :: rest) position).next =
      (Cursor.mk rest (position.after c)).next := by
    simp only [Cursor.next, hskip]
  rw [← h (position.after c), Cursor.scan, Cursor.scan.eq_1 (Cursor.mk rest _)]
  simp only [hnext]

/-- A token before a text; a slash is one unless another slash follows it. -/
theorem LexesTo.token {c : Char} (cs : List Char) {rest : List Char} {kind : TokenKind}
    {kinds : List TokenKind} (h : LexesTo rest kinds) (hblank : Text.isBlank c = false)
    (hcomment : ¬(c = '/' ∧ (cs ++ rest).head? = some '/'))
    (hspell : spell c (cs ++ rest) = .token kind (cs.length + 1)) (hkind : kind ≠ .endOfInput) :
    LexesTo (c :: cs ++ rest) (kind :: kinds) := by
  intro position
  -- nothing is skipped in front of the token
  have hskip : (Cursor.mk (c :: (cs ++ rest)) position).skip = ⟨c :: (cs ++ rest), position⟩ := by
    rw [Cursor.skip, Cursor.skipBlanks, if_neg (by decide), if_neg (by simp [hblank]),
      if_neg hcomment]
  have hnext : (Cursor.mk (c :: (cs ++ rest)) position).next =
      (.ok ⟨kind, position.location⟩, ⟨rest, position.afterAll (c :: cs)⟩) := by
    simp [Cursor.next, hskip, hspell, Spelling.lexeme, Spelling.length, Cursor.advance]
  have hlast : Cursor.isLast (.ok ⟨kind, position.location⟩) = false := by
    simpa [Cursor.isLast] using hkind
  rw [List.cons_append, Cursor.scan]
  simp only [hnext, hlast, Bool.false_eq_true, if_false, List.map_cons]
  exact congrArg (some kind :: ·) (h _)

/-- A token that is no slash before a text. -/
theorem LexesTo.cons {c : Char} (cs : List Char) {rest : List Char} {kind : TokenKind}
    {kinds : List TokenKind} (h : LexesTo rest kinds) (hblank : Text.isBlank c = false)
    (hcomment : c ≠ '/') (hspell : spell c (cs ++ rest) = .token kind (cs.length + 1))
    (hkind : kind ≠ .endOfInput) : LexesTo (c :: cs ++ rest) (kind :: kinds) :=
  h.token cs hblank (fun hslash => hcomment hslash.1) hspell hkind

/-- The kinds of the lexemes of a text do not depend on where they stand. -/
theorem LexesTo.lexemes {cs : List Char} {kinds : List TokenKind} (h : LexesTo cs kinds) :
    (lexemes (String.ofList cs)).map Lexeme.kind? = kinds.map some := by
  rw [← h .start]
  simp [WasmCompiler.lexemes, Cursor.ofString]

/-- A parser at the beginning of a text faces its tokens. -/
theorem Parse.exists_start {text : String} {kinds : List TokenKind}
    (h : (lexemes text).map Lexeme.kind? = kinds.map some) (hkinds : kinds ≠ [])
    (pool : StringPool) :
    ∃ p, Parse.start text pool = .ok p ∧ p.Faces kinds ∧ p.strings = pool := by
  unfold Parse.start
  match hfound : lexemes text with
  | [] =>
    rw [hfound] at h
    exact absurd (by simpa using h.symm) hkinds
  | .error e :: rest =>
    rw [hfound] at h
    match kinds, h with
    | [], _ => exact absurd rfl hkinds
    | kind :: kinds, h => exact absurd (List.cons.inj h).1 (by simp [Lexeme.kind?])
  | .ok token :: rest =>
    refine ⟨_, rfl, ?_, rfl⟩
    rw [hfound] at h
    unfold Parser.Faces
    rw [← h]
    cases rest with
    | nil => exact List.cons_prefix_cons.mpr ⟨rfl, List.nil_prefix⟩
    | cons other rest => exact List.prefix_refl _

/-- A text of tokens can be begun on, whatever pool there is. -/
theorem LexesTo.start {cs : List Char} {kinds : List TokenKind} (h : LexesTo cs kinds)
    (hkinds : kinds ≠ []) (pool : StringPool) :
    ∃ p, Parse.start (String.ofList cs) pool = .ok p ∧ p.Faces kinds ∧ p.strings = pool :=
  Parse.exists_start h.lexemes hkinds pool

end WasmCompiler
