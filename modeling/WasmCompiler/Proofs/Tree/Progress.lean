import WasmCompiler.Proofs.Tree.Interning
import WasmCompiler.Proofs.Tree.Looping
import WasmCompiler.Proofs.Tree.Stepping

/-!
# The parser gets on and stops

`Parser.tokens` are the tokens before a parser: those up to the end of the text or to the first
lexeme that is no token. A statement, an expression, a type and a field take at least one of them
or fail (`Moves.progresses`), and the end of the text is not among them, so they fail there. Every
round of a loop takes one too, so no loop begins more rounds than there are tokens
(`itemsEnd_of_lt`, `listEnds`, `operatorsEnd`), and parsing a text comes to an end.

Annotations may nest as deep as there are tokens. The number of levels that the parser begins with
is enough for all of them, so it is as if each level were parsed by the same parser
(`typeName_eq`).

`parser_progresses` collects all this: progress for every parser that needs a token, an end for
every loop, enough fuel for annotations, and an end for every text.
-/

namespace WasmCompiler

variable {p q r : Parser} {c : Cursor} {ls : List Lexeme}

/-! ### The tokens before a parser

What there is to take, as a list that gets shorter. -/

/-- The tokens at the front of some lexemes, up to the end of the text. -/
def leadingTokens : List Lexeme → List Token
  | .ok token :: rest =>
    if token.kind = .endOfInput then [] else token :: leadingTokens rest
  | _ => []

/-- The current token of a parser and those after it, up to the end of the text or to the first
lexeme that is no token. -/
def Parser.tokens (p : Parser) : List Token :=
  leadingTokens (.ok p.current :: p.upcoming)

/-- At the end of the text there is no token, and only there. -/
theorem Parser.tokens_eq_nil_iff : p.tokens = [] ↔ p.current.kind = .endOfInput := by
  simp [Parser.tokens, leadingTokens]

/-- The tokens of a parser are read off the lexemes that it is at. -/
theorem Parser.At.tokens_eq (h : p.At ls) : p.tokens = leadingTokens ls := by
  obtain ⟨more, rfl⟩ := h.eq_cons
  have hupcoming := h.upcoming
  cases h.isScan with
  | last hlast =>
    have hend : p.current.kind = .endOfInput := by simpa [Cursor.isLast] using hlast
    rw [Parser.tokens_eq_nil_iff.mpr hend]
    simp [leadingTokens, hend]
  | cons _ hmore => rw [Parser.tokens, hupcoming, hmore.dropLexeme_cons]

/-- Tokens that something follows are none of them the end of the text. -/
theorem leadingTokens_append {tokens : List Token} {rest : List Lexeme}
    (h : IsScan (tokens.map .ok ++ rest)) (hrest : rest ≠ []) :
    leadingTokens (tokens.map .ok ++ rest) = tokens ++ leadingTokens rest := by
  induction tokens with
  | nil => rfl
  | cons token tokens ih =>
    rw [List.map_cons, List.cons_append] at h ⊢
    generalize hmore : tokens.map Except.ok ++ rest = more at h ih ⊢
    cases h with
    | last =>
      rw [List.append_eq_nil_iff] at hmore
      exact absurd hmore.2 hrest
    | cons hlast hscan =>
      have hend : token.kind ≠ .endOfInput := by simpa [Cursor.isLast] using hlast
      rw [leadingTokens, if_neg hend, ih hscan]
      rfl

/-- The last lexeme is not among the tokens: it is the end of the text or an error. -/
theorem IsScan.length_leadingTokens_lt (h : IsScan ls) : (leadingTokens ls).length < ls.length := by
  induction h with
  | @last lexeme hlast =>
    cases lexeme with
    | error e => simp [leadingTokens]
    | ok token =>
      have hend : token.kind = .endOfInput := by simpa [Cursor.isLast] using hlast
      simp [leadingTokens, hend]
  | @cons lexeme ls _ _ ih =>
    cases lexeme with
    | error e => simp [leadingTokens]
    | ok token =>
      rw [leadingTokens]
      split <;> simp only [List.length_nil, List.length_cons] <;> omega

/-- There are no more tokens than lexemes after the current token. -/
theorem Parser.At.length_tokens_le (h : p.At ls) : p.tokens.length ≤ p.upcoming.length := by
  have hlt := h.isScan.length_leadingTokens_lt
  have hle := Parse.length_le_of_dropLexeme ls
  rw [h.tokens_eq, h.upcoming]
  omega

namespace Parse

variable {α β : Type}

/-! ### What an operation takes

From the lexemes that `Consumes` speaks of to the tokens that are left. -/

/-- The lexemes that an operation takes are tokens, and those before it. -/
theorem Consumes.exists_taken {m : ParseM α} {Q : List Token → List Lexeme → α → Prop} {a : α}
    (hm : Consumes m ls Q) (hp : p.At ls) (hrun : m p = .ok a q) :
    ∃ taken rest, q.At rest ∧ p.tokens = taken ++ q.tokens ∧ Q taken rest a := by
  obtain ⟨taken, rest, rfl, hq, -, hQ⟩ := hm p q a hp hrun
  refine ⟨taken, rest, hq, ?_, hQ⟩
  have hrest : rest ≠ [] := by
    obtain ⟨more, rfl⟩ := hq.eq_cons
    exact List.cons_ne_nil _ _
  rw [hp.tokens_eq, hq.tokens_eq, leadingTokens_append hp.isScan hrest]

/-- A steady operation leaves no more tokens than it found. -/
theorem Steady.length_tokens_le {m : ParseM α} {a : α} (hm : Steady m) (hp : p.At ls)
    (hrun : m p = .ok a q) : (∃ rest, q.At rest) ∧ q.tokens.length ≤ p.tokens.length := by
  obtain ⟨taken, rest, hq, htokens, -⟩ := (hm ls).exists_taken hp hrun
  rw [htokens, List.length_append]
  exact ⟨⟨rest, hq⟩, by omega⟩

/-- Whenever its result is of some kind the operation has taken a token. -/
theorem length_tokens_lt {m : ParseM α} {C : α → Prop} {a : α}
    (hm : ∀ ls, Consumes m ls fun tokens _ a => C a → tokens ≠ []) (hp : p.At ls)
    (hrun : m p = .ok a q) (ha : C a) :
    (∃ rest, q.At rest) ∧ q.tokens.length < p.tokens.length := by
  obtain ⟨taken, rest, hq, htokens, htaken⟩ := (hm ls).exists_taken hp hrun
  have hpos := List.length_pos_iff.mpr (htaken ha)
  rw [htokens, List.length_append]
  exact ⟨⟨rest, hq⟩, by omega⟩

/-- An operation that makes progress leaves fewer. -/
theorem Moves.length_tokens_lt {m : ParseM α} {a : α} (hm : Moves m) (hp : p.At ls)
    (hrun : m p = .ok a q) : (∃ rest, q.At rest) ∧ q.tokens.length < p.tokens.length :=
  Parse.length_tokens_lt (C := fun _ => True) (fun ls => (hm ls).weaken fun _ _ _ h _ => h) hp
    hrun trivial

/-- The token that is taken is the first one. -/
theorem tokens_of_advance {token : Token} (hp : p.At ls) (hend : p.current.kind ≠ .endOfInput)
    (hrun : advance p = .ok token q) : (∃ rest, q.At rest) ∧ p.tokens = p.current :: q.tokens := by
  obtain ⟨more, rfl⟩ := hp.eq_cons
  obtain ⟨-, hq, -⟩ := at_of_advance hp hend hrun
  refine ⟨⟨more, hq⟩, ?_⟩
  rw [hp.tokens_eq, hq.tokens_eq, leadingTokens, if_neg hend]

/-- Wherever and however the operation ends, the place in the text was reached by reading on. -/
def Advances (m : ParseM α) : Prop :=
  ∀ p c, p.StandsAt c → ∃ d, Steps (p, c) (finalState m p, d) ∧ (finalState m p).StandsAt d ∧
    c.position.offset ≤ d.position.offset

/-- By the operations it is built from, each of which reads on or stays. -/
theorem Built.advances {m : ParseM α} (hm : Built m) : Advances m := by
  intro p c hp
  obtain ⟨d, hsteps⟩ := hm.exists_steps hp
  exact ⟨d, hsteps, hsteps.standsAt hp, hsteps.reads.offset_le⟩

/-- The operation takes at least one of the tokens before it or fails. At the end of the text
there are none, and it fails. -/
structure Progresses (m : ParseM α) : Prop where
  advances : Advances m
  takes : ∀ p c, p.StandsAt c → ∀ a q, m p = .ok a q →
    ∃ taken, taken ≠ [] ∧ p.tokens = taken ++ q.tokens
  fails : ∀ p c, p.StandsAt c → p.current.kind = .endOfInput → ∃ e q, m p = .error e q

/-- An operation that takes a token whenever it succeeds can only fail where there is none. -/
theorem progresses_of_takes {m : ParseM α} (hbuilt : Built m)
    (htakes : ∀ p c, p.StandsAt c → ∀ a q, m p = .ok a q →
      ∃ taken, taken ≠ [] ∧ p.tokens = taken ++ q.tokens) : Progresses m := by
  refine ⟨hbuilt.advances, htakes, fun p c hp hend => ?_⟩
  cases hrun : m p with
  | error e q => exact ⟨e, q, rfl⟩
  | ok a q =>
    obtain ⟨taken, htaken, htokens⟩ := htakes p c hp a q hrun
    rw [Parser.tokens_eq_nil_iff.mpr hend] at htokens
    exact absurd (List.append_eq_nil_iff.mp htokens.symm).1 htaken

/-- `Moves` counts lexemes and `Progresses` counts tokens; those that are taken are tokens. -/
theorem Moves.progresses {m : ParseM α} (hm : Moves m) (hbuilt : Built m) : Progresses m := by
  refine progresses_of_takes hbuilt fun p c hp a q hrun => ?_
  obtain ⟨ls, hls⟩ := hp.exists_at
  obtain ⟨taken, -, -, htokens, htaken⟩ := (hm ls).exists_taken hls hrun
  exact ⟨taken, htaken, htokens⟩

/-! ### Loops over items

The statements of a block and of a program, the fields of a struct and the elements of a tuple. -/

/-- Going through items ends, and begins no more rounds than there are tokens. -/
def ItemsEnd (more : ParseM Bool) (item : ParseM α) : Prop :=
  ∀ p c, p.StandsAt c →
    ∃ n ≤ p.tokens.length, (itemLoop more item).Runs [] p n (many more item p)

/-- The number of tokens is the measure that a round lowers. -/
theorem itemsEnd_of_lt {more : ParseM Bool} {item : ParseM α}
    (hstarted : ∀ {p q ls}, p.At ls → more p = .ok true q → 0 < p.tokens.length)
    (hround : ∀ {p q r ls x}, p.At ls → more p = .ok true q → item q = .ok x r →
      (∃ rest, r.At rest) ∧ r.tokens.length < p.tokens.length) : ItemsEnd more item := by
  have hlowers : (itemLoop more item).Lowers (fun p => ∃ ls, p.At ls)
      fun _ p => p.tokens.length := by
    constructor
    · rintro xs u p q ⟨ls, hp⟩ hnext
      exact hstarted hp (next_itemLoop_eq_ok_iff.mp hnext)
    · rintro xs ys u p q r ⟨ls, hp⟩ hnext hbody
      obtain ⟨x, hitem, -⟩ := body_itemLoop_eq_ok_iff.mp hbody
      exact hround hp (next_itemLoop_eq_ok_iff.mp hnext) hitem
  intro p c hp
  obtain ⟨ls, hls⟩ := hp.exists_at
  obtain ⟨n, result, hruns, hn⟩ := hlowers.exists_runs [] ⟨ls, hls⟩
  refine ⟨n, hn, ?_⟩
  rwa [hruns.many_eq (hn.trans hls.length_tokens_le)]

/-- What says that there is another item has taken a token for it. -/
theorem itemsEnd_of_taking {more : ParseM Bool} {item : ParseM α}
    (hmore : ∀ ls, Consumes more ls fun tokens _ found => found = true → tokens ≠ [])
    (hitem : Steady item) : ItemsEnd more item := by
  refine itemsEnd_of_lt (fun hp hfound => ?_) fun hp hfound hx => ?_
  · have hlt := (length_tokens_lt hmore hp hfound rfl).2
    omega
  · obtain ⟨⟨rest, hq⟩, hlt⟩ := length_tokens_lt hmore hp hfound rfl
    obtain ⟨hr, hle⟩ := hitem.length_tokens_le hq hx
    exact ⟨hr, by omega⟩

/-- A list does not go on at the end of the text, whatever closes it. -/
theorem notAt_eq_ok_true {close : TokenKind} (h : notAt close p = .ok true q) :
    q = p ∧ p.current.kind ≠ .endOfInput := by
  obtain ⟨token, t, hpeek, hpure⟩ := EStateM.bind_eq_ok_iff.mp h
  obtain ⟨rfl, rfl⟩ := EStateM.Result.ok.inj hpeek
  obtain ⟨hmore, rfl⟩ := EStateM.pure_eq_ok_iff.mp hpure
  simp only [ne_eq, Bool.and_eq_true, decide_eq_true_eq] at hmore
  exact ⟨rfl, hmore.2⟩

/-- Items go on to a closing token or to the end of the text, and each takes a token. -/
theorem itemsEnd_notAt {item : ParseM α} (close : TokenKind) (hitem : Moves item) :
    ItemsEnd (notAt close) item := by
  refine itemsEnd_of_lt (fun hp hfound => ?_) fun hp hfound hx => ?_
  · have hend := (notAt_eq_ok_true hfound).2
    exact List.length_pos_iff.mpr fun hnil => hend (Parser.tokens_eq_nil_iff.mp hnil)
  · obtain ⟨rfl, -⟩ := notAt_eq_ok_true hfound
    exact hitem.length_tokens_lt hp hx

/-- The comma that announces an element is taken. -/
theorem consumes_anotherElement_ne_nil (ls : List Lexeme) :
    Consumes anotherElement ls fun tokens _ another => another = true → tokens ≠ [] := by
  refine consumes_anotherElement.weaken fun tokens _ another h hanother hnil => ?_
  rcases h with hcomma | ⟨hfalse, -⟩
  · rw [hnil] at hcomma
    cases hcomma
  · rw [hanother] at hfalse
    cases hfalse

/-! ### Lists

Items with commas between them, where the first one is due. -/

/-- Going through items with commas between them ends. Its first round is begun wherever the list
is, and fails if there is no token; apart from this it begins no more rounds than there are tokens.
A list stands behind a token that opens it, and counted from that one there are enough. -/
structure ListEnds (item : ParseM α) : Prop where
  here : ∀ p c, p.StandsAt c →
    ∃ n ≤ max 1 p.tokens.length, (listLoop item).Runs ([], true) p n (commaSeparated item p)
  behind : ∀ p c token q, p.StandsAt c → p.current.kind ≠ .endOfInput → advance p = .ok token q →
    ∃ n ≤ p.tokens.length, (listLoop item).Runs ([], true) q n (commaSeparated item q)

/-- An item is due after a comma, so the measure is positive even if the text ends there. -/
theorem lowers_listLoop {item : ParseM α} (hitem : Moves item) :
    (listLoop item).Lowers (fun p => ∃ ls, p.At ls)
      fun s p => if s.2 then max 1 p.tokens.length else 0 := by
  constructor
  · rintro s u p q - hnext
    have hdue : s.2 = true := (next_listLoop_eq_ok_iff.mp hnext).1
    rw [if_pos hdue]
    omega
  · rintro s s' u p q r ⟨ls, hp⟩ hnext hbody
    obtain ⟨hdue, rfl⟩ := next_listLoop_eq_ok_iff.mp hnext
    obtain ⟨x, t, found, hx, hcomma, rfl⟩ := body_listLoop_eq_ok_iff.mp hbody
    obtain ⟨⟨rest, ht⟩, hless⟩ := hitem.length_tokens_lt hp hx
    have hsteady := (steady_accept rfl).length_tokens_le ht hcomma
    refine ⟨hsteady.1, ?_⟩
    rw [if_pos (show s.2 = true from hdue)]
    cases found with
    | false => simp
    | true =>
      -- the item has taken a token, and the comma is another one
      have hlt := (length_tokens_lt (consumes_accept_iff rfl) ht hcomma rfl).2
      simp only [if_true]
      omega

/-- A list ends because its loop lowers the measure. -/
theorem listEnds {item : ParseM α} (hitem : Moves item) : ListEnds item := by
  have hhere : ∀ p c, p.StandsAt c → ∃ n ≤ max 1 p.tokens.length,
      (listLoop item).Runs ([], true) p n (commaSeparated item p) := by
    intro p c hp
    obtain ⟨ls, hls⟩ := hp.exists_at
    obtain ⟨n, result, hruns, hn⟩ := (lowers_listLoop hitem).exists_runs ([], true) ⟨ls, hls⟩
    replace hn : n ≤ max 1 p.tokens.length := hn
    have hle := hls.length_tokens_le
    refine ⟨n, hn, ?_⟩
    rwa [hruns.commaSeparated_eq (by omega)]
  refine ⟨hhere, fun p c token q hp hend hrun => ?_⟩
  obtain ⟨ls, hls⟩ := hp.exists_at
  obtain ⟨d, -, hq, -⟩ := Built.advance.advances p c hp
  rw [finalState_of_ok hrun] at hq
  obtain ⟨n, hn, hruns⟩ := hhere q d hq
  -- the token that opens the list makes up for a first round that fails
  have htokens := (tokens_of_advance hls hend hrun).2
  refine ⟨n, ?_, hruns⟩
  rw [htokens, List.length_cons]
  omega

/-! ### Operators

The loop of `climb`. -/

/-- Folding operators into an expression ends, and folds in no more than there are tokens. -/
def OperatorsEnd (levels precedence : Nat) (left : Expr) : Prop :=
  ∀ p c, p.StandsAt c → ∃ n ≤ p.tokens.length,
    (operatorLoop precedence).Runs (levels, left) p n (climb levels precedence left p)

/-- The operator that was found is the current token, which is still there. -/
theorem continuation?_eq_ok_some {precedence : Nat} {k : Continuation}
    (h : continuation? precedence p = .ok (some k) q) : q = p ∧ p.current.kind = k.kind := by
  obtain ⟨token, t, hpeek, hpure⟩ := EStateM.bind_eq_ok_iff.mp h
  obtain ⟨rfl, rfl⟩ := EStateM.Result.ok.inj hpeek
  obtain ⟨hk, rfl⟩ := EStateM.pure_eq_ok_iff.mp hpure
  exact ⟨rfl, Continuation.eq_kind_of_ofToken? (Option.filter_eq_some_iff.mp hk).1⟩

/-- An operator is taken without a look at it. -/
theorem consumes_extend_ne_nil {inner : Nat → ParseM Expr} {token : Token} {more : List Lexeme}
    (hinner : ∀ precedence, Steady (inner precedence)) (left : Expr) (k : Continuation)
    (hplain : isPlain token.kind) :
    Consumes (extend inner left k) (.ok token :: more) fun tokens _ _ => tokens ≠ [] := by
  refine consumes_advance hplain (Steady.after ?_ token more)
  have hlist : Steady (expressionList inner .rparen) := by
    refine (steady_check _).bind fun _ => Steady.ite ?_ ?_
    · exact (steady_pure []).bind fun _ => (moves_expect rfl).steady.bind fun _ => steady_pure _
    · exact (steady_commaSeparated (hinner lowest)).bind fun _ =>
        (moves_expect rfl).steady.bind fun _ => steady_pure _
  cases k with
  | call =>
    cases left with
    | identifier location callee => exact hlist.bind fun _ => steady_pure _
    | _ => exact fun _ => consumes_throw
  | index =>
    exact (hinner lowest).bind fun _ => (moves_expect rfl).steady.bind fun _ => steady_pure _
  | member => exact (moves_expectName _).steady.bind fun _ => steady_pure _
  | binary op => exact (hinner _).bind fun _ => steady_pure _

/-- Every operator that is folded in is taken, and it is a token. -/
theorem operatorsEnd (levels precedence : Nat) (left : Expr) :
    OperatorsEnd levels precedence left := by
  have hlowers : (operatorLoop precedence).Lowers (fun p => ∃ ls, p.At ls)
      fun _ p => p.tokens.length := by
    constructor
    · -- what is folded in begins with the current token, which is not the end of the text
      rintro s k p q - hnext
      have hkind := (continuation?_eq_ok_some hnext).2
      refine List.length_pos_iff.mpr fun hnil => ?_
      have hplain := k.isPlain_kind
      rw [← hkind, Parser.tokens_eq_nil_iff.mp hnil] at hplain
      cases hplain
    · rintro ⟨_ | levels, left⟩ s' k p q r ⟨ls, hp⟩ hnext hbody
      · cases hbody
      · obtain ⟨rfl, hkind⟩ := continuation?_eq_ok_some hnext
        -- the operator is taken, so fewer tokens are left for the next round
        obtain ⟨left', t, hextend, hpure⟩ := EStateM.bind_eq_ok_iff.mp hbody
        obtain ⟨-, rfl⟩ := EStateM.pure_eq_ok_iff.mp hpure
        obtain ⟨more, rfl⟩ := hp.eq_cons
        have hinner (precedence : Nat) := (moves_expression levels precedence).steady
        obtain ⟨taken, rest, hr, htokens, htaken⟩ :=
          (consumes_extend_ne_nil hinner left k (hkind ▸ k.isPlain_kind)).exists_taken hp hextend
        have hpos := List.length_pos_iff.mpr htaken
        rw [htokens, List.length_append]
        exact ⟨⟨rest, hr⟩, by omega⟩
  intro p c hp
  obtain ⟨ls, hls⟩ := hp.exists_at
  obtain ⟨n, result, hruns, hn⟩ := hlowers.exists_runs (levels, left) ⟨ls, hls⟩
  refine ⟨n, hn, ?_⟩
  rwa [hruns.climb_eq]

/-! ### Annotations

One step of the recursion with the parser of the inner levels as a parameter. -/

/-- One level of an annotation; `inner` parses the levels in it. -/
def typeNameStep (inner : ParseM TypeName) : ParseM TypeName := do
  match (← peek).kind with
  | .identifier name =>
    let _ ← advance
    return .named name
  | .lbracket =>
    let _ ← advance
    let element ← inner
    let _ ← expect .rbracket
    return .array element
  | .lparen =>
    let _ ← advance
    let first ← inner
    if ← check .comma then
      let others ← many anotherElement inner
      let _ ← expect .rparen
      return .tuple (first :: others)
    else
      let _ ← expect .rparen
      return first
  | _ => unexpected .type

/-- One level of fuel is one level of an annotation. -/
theorem typeNameUpTo_succ (n : Nat) : typeNameUpTo (n + 1) = typeNameStep (typeNameUpTo n) :=
  rfl

/-- Where the text ends no annotation begins, however many levels are left. -/
theorem typeNameStep_of_end {inner : ParseM TypeName} (h : p.current.kind = .endOfInput) :
    typeNameStep inner p = unexpected .type p := by
  have hpeek : peek p = .ok p.current p := rfl
  rw [typeNameStep, EStateM.bind_of_ok hpeek, h]

/-- Items that are parsed alike where few tokens are left make the same loop there. -/
theorem manyUpTo_congr {more : ParseM Bool} {item item' : ParseM α} {bound : Nat}
    (hmore : Steady more) (hitem : Steady item)
    (hsame : ∀ q rest, q.At rest → q.tokens.length ≤ bound → item q = item' q) (n : Nat)
    (hp : p.At ls) (hbound : p.tokens.length ≤ bound) :
    manyUpTo more item n p = manyUpTo more item' n p := by
  induction n generalizing p ls with
  | zero => rfl
  | succ n ih =>
    refine EStateM.bind_congr rfl fun found q hq => ?_
    obtain ⟨⟨rest, hrest⟩, hle⟩ := hmore.length_tokens_le hp hq
    cases found with
    | false => rfl
    | true =>
      refine EStateM.bind_congr (hsame q rest hrest (by omega)) fun x r hr => ?_
      obtain ⟨⟨rest', hrest'⟩, hle'⟩ := hitem.length_tokens_le hrest hr
      exact EStateM.bind_congr (ih hrest' (by omega)) fun _ _ _ => rfl

/-- The levels in an annotation are parsed where fewer tokens are left. -/
theorem typeNameStep_congr {inner inner' : ParseM TypeName} (hinner : Steady inner)
    (hp : p.At ls)
    (hsame : ∀ q rest, q.At rest → q.tokens.length < p.tokens.length → inner q = inner' q) :
    typeNameStep inner p = typeNameStep inner' p := by
  have hadvance {token : Token} {q : Parser} (hend : p.current.kind ≠ .endOfInput)
      (hrun : advance p = .ok token q) :
      (∃ more, q.At more) ∧ q.tokens.length < p.tokens.length := by
    obtain ⟨hq, htokens⟩ := tokens_of_advance hp hend hrun
    rw [htokens]
    exact ⟨hq, Nat.lt_succ_self _⟩
  refine EStateM.bind_congr rfl fun token q hpeek => ?_
  obtain ⟨rfl, rfl⟩ := EStateM.Result.ok.inj hpeek
  cases hkind : p.current.kind with
  | lbracket =>
    refine EStateM.bind_congr rfl fun _ q hrun => ?_
    obtain ⟨⟨more, hq⟩, hlt⟩ := hadvance (by simp [hkind]) hrun
    exact EStateM.bind_congr (hsame q more hq hlt) fun _ _ _ => rfl
  | lparen =>
    refine EStateM.bind_congr rfl fun _ q hrun => ?_
    obtain ⟨⟨more, hq⟩, hlt⟩ := hadvance (by simp [hkind]) hrun
    refine EStateM.bind_congr (hsame q more hq hlt) fun first r hfirst => ?_
    obtain ⟨⟨rest, hr⟩, hle⟩ := hinner.length_tokens_le hq hfirst
    refine EStateM.bind_congr rfl fun found t hcheck => ?_
    obtain ⟨⟨rest', ht⟩, hle'⟩ := (steady_check .comma).length_tokens_le hr hcheck
    cases found with
    | false => rfl
    | true =>
      -- the other elements stand behind the first one
      have hothers : many anotherElement inner t = many anotherElement inner' t :=
        manyUpTo_congr steady_anotherElement hinner
          (fun q rest hq hbound => hsame q rest hq (by omega)) _ ht (le_refl t.tokens.length)
      exact EStateM.bind_congr hothers fun _ _ _ => rfl
  | _ => rfl

/-- As many levels as there are tokens are as good as more. -/
theorem typeNameUpTo_eq {n n' : Nat} (hp : p.At ls) (hn : p.tokens.length ≤ n)
    (hn' : p.tokens.length ≤ n') : typeNameUpTo n p = typeNameUpTo n' p := by
  have hend (h : p.tokens.length ≤ 0) : p.current.kind = .endOfInput :=
    Parser.tokens_eq_nil_iff.mp (List.length_eq_zero_iff.mp (Nat.le_zero.mp h))
  -- every level takes a token, so neither fuel is used up before the text ends
  induction n generalizing p ls n' with
  | zero =>
    cases n' with
    | zero => rfl
    | succ n' =>
      rw [typeNameUpTo_succ, typeNameStep_of_end (hend hn)]
      rfl
  | succ n ih =>
    cases n' with
    | zero =>
      rw [typeNameUpTo_succ, typeNameStep_of_end (hend hn')]
      rfl
    | succ n' =>
      rw [typeNameUpTo_succ, typeNameUpTo_succ]
      refine typeNameStep_congr (moves_typeNameUpTo n).steady hp fun q rest hq hlt => ?_
      refine ih hq (by omega) (by omega) fun h => ?_
      exact Parser.tokens_eq_nil_iff.mp (List.length_eq_zero_iff.mp (Nat.le_zero.mp h))

/-- Annotations are parsed level by level, and no level is missing. -/
theorem typeName_eq (hp : p.At ls) : typeName p = typeNameStep typeName p := by
  have hlength := hp.length_tokens_le
  refine typeNameStep_congr (moves_typeNameUpTo p.upcoming.length).steady hp
    fun q rest hq hlt => ?_
  have hlength' : q.tokens.length ≤ q.upcoming.length + 1 := Nat.le_succ_of_le hq.length_tokens_le
  exact typeNameUpTo_eq hq (by omega) hlength'

/-! ### The parser

The list of parsers that the main result is about, and whole texts. -/

/-- A token of any kind but the end of the text. -/
theorem progresses_expect {kind : TokenKind} (hkind : kind ≠ .endOfInput) :
    Progresses (expect kind) := by
  refine progresses_of_takes (built_expect kind) fun p c hp token q hrun => ?_
  obtain ⟨ls, hls⟩ := hp.exists_at
  obtain ⟨found, t, hcheck, htoken⟩ := EStateM.bind_eq_ok_iff.mp hrun
  obtain ⟨rfl, rfl⟩ := EStateM.Result.ok.inj hcheck
  by_cases hfound : p.current.kind = kind
  · rw [if_pos (by simpa using hfound)] at htoken
    exact ⟨[p.current], List.cons_ne_nil _ _, (tokens_of_advance hls (hfound ▸ hkind) htoken).2⟩
  · rw [if_neg (by simpa using hfound)] at htoken
    cases htoken

/-- The parsers that need a token: those of the parts of a program, and those that ask for a token
of a kind. What is in a block is parsed some levels further down. -/
inductive NeedsToken : {α : Type} → ParseM α → Prop where
  | statement (levels : Nat) : NeedsToken (level levels).statement
  | conditional (levels : Nat) : NeedsToken (level levels).conditional
  | function (levels : Nat) (exported : Bool) :
      NeedsToken (function (some (level levels)) exported)
  | exportedFunction (levels : Nat) : NeedsToken (exportedFunction (some (level levels)))
  | block (levels : Nat) : NeedsToken (block (some (level levels)))
  | whileLoop (levels inner : Nat) : NeedsToken (whileLoop levels (some (level inner)))
  | structDecl : NeedsToken structDecl
  | binding : NeedsToken binding
  | returnStmt (levels : Nat) : NeedsToken (returnStmt levels)
  | printStmt (levels : Nat) : NeedsToken (printStmt levels)
  | assignmentOrExpression (levels : Nat) : NeedsToken (assignmentOrExpression levels)
  | expression (levels precedence : Nat) : NeedsToken (expression levels precedence)
  | typeName : NeedsToken typeName
  | field (wanted : Wanted) : NeedsToken (field wanted)
  | expectName (wanted : Wanted) : NeedsToken (expectName wanted)
  | expect {kind : TokenKind} (hkind : kind ≠ .endOfInput) : NeedsToken (expect kind)

theorem NeedsToken.progresses {m : ParseM α} (h : NeedsToken m) : Progresses m := by
  have hbuilt (n : Nat) : ∀ l ∈ some (level n), LevelBuilt l := by simpa using levelBuilt n
  have hmoves (n : Nat) : ∀ l ∈ some (level n), LevelMoves l := by simpa using levelMoves n
  cases h with
  | statement n => exact (levelMoves n).statement.progresses (levelBuilt n).statement
  | conditional n => exact (levelMoves n).conditional.progresses (levelBuilt n).conditional
  | function n exported =>
    exact (moves_function (hmoves n) exported).progresses (built_function (hbuilt n) exported)
  | exportedFunction n =>
    exact (moves_exportedFunction (hmoves n)).progresses (built_exportedFunction (hbuilt n))
  | block n => exact (moves_block (hmoves n)).progresses (built_block (hbuilt n))
  | whileLoop levels n =>
    exact (moves_whileLoop (hmoves n)).progresses (built_whileLoop (hbuilt n) levels)
  | structDecl => exact moves_structDecl.progresses built_structDecl
  | binding => exact moves_binding.progresses built_binding
  | returnStmt levels => exact moves_returnStmt.progresses (built_returnStmt levels)
  | printStmt levels => exact moves_printStmt.progresses (built_printStmt levels)
  | assignmentOrExpression levels =>
    exact moves_assignmentOrExpression.progresses (built_assignmentOrExpression levels)
  | expression levels precedence =>
    exact (moves_expression levels precedence).progresses (built_expression levels precedence)
  | typeName => exact moves_typeName.progresses built_typeName
  | field wanted => exact (moves_field wanted).progresses (built_field wanted)
  | expectName wanted => exact (moves_expectName wanted).progresses (built_expectName wanted)
  | expect hkind => exact progresses_expect hkind

/-- Parsing a text comes to an end: its first lexeme is no token, or the parser begins behind it
and gives a program, at the end of the text, or an error. -/
def ParsingEnds (text : String) (pool : StringPool) : Prop :=
  (∃ e, start text pool = .error e ∧ parseProgram text pool = (.error e, pool)) ∨
    ∃ p, start text pool = .ok p ∧ p.StandsAt (Cursor.ofString text).next.2 ∧
      ((∃ tree q, program p = .ok tree q ∧ q.current.kind = .endOfInput ∧
          parseProgram text pool = (.ok tree, q.strings)) ∨
        ∃ e q, program p = .error e q ∧ parseProgram text pool = (.error e, q.strings))

/-- The first lexeme decides whether there is a parser at all, and then the loop over statements
ends. -/
theorem parsingEnds (text : String) (pool : StringPool) : ParsingEnds text pool := by
  unfold ParsingEnds parseProgram
  cases hstart : start text pool with
  | error e => exact .inl ⟨e, rfl, rfl⟩
  | ok p =>
    have hp := standsAt_of_start hstart
    refine .inr ⟨p, rfl, hp, ?_⟩
    cases hrun : program p with
    | error e q => exact .inr ⟨e, q, rfl, by simp only [hrun]⟩
    | ok tree q =>
      -- statements are parsed until there is no token left
      obtain ⟨ls, hls⟩ := hp.exists_at
      obtain ⟨-, rest, hq, -, token, others, rfl, hend⟩ :=
        (consumes_program ls).exists_taken hls hrun
      exact .inl ⟨tree, q, rfl, hq.current_eq ▸ hend, by simp only [hrun]⟩

/-- The parser gets on and stops, wherever it stands in a text. What needs a token takes at least
one of those before it or fails, and fails at the end of the text. Every loop is one that is left
to itself and ends: it begins no more rounds than there are tokens. An annotation is parsed with
no bound on its levels. So parsing a text gives a program or an error, and the place in the text
has not moved back. -/
theorem parser_progresses :
    (∀ {α : Type} {m : ParseM α}, NeedsToken m → Progresses m) ∧
    (ItemsEnd (accept .semicolon) (pure ()) ∧
      (∀ levels, ItemsEnd (notAt .endOfInput) (level levels).statement) ∧
      (∀ levels, ItemsEnd (notAt .rbrace) (level levels).statement) ∧
      ItemsEnd (notAt .rbrace) (do
        let f ← field .fieldName
        let _ ← accept .comma
        return f) ∧
      ItemsEnd anotherElement typeName ∧
      ∀ levels, ItemsEnd anotherElement (expression levels lowest)) ∧
    (ListEnds (field .parameterName) ∧
      ListEnds binding ∧
      ∀ levels, ListEnds (expression levels lowest)) ∧
    (∀ levels precedence left, OperatorsEnd levels precedence left) ∧
    (∀ p c, p.StandsAt c → typeName p = typeNameStep typeName p) ∧
    Advances program ∧
    ∀ text pool, ParsingEnds text pool := by
  have hstatement (levels : Nat) := (levelMoves levels).statement
  have hexpression (levels : Nat) := moves_expression levels lowest
  refine ⟨NeedsToken.progresses, ⟨?_, fun levels => ?_, fun levels => ?_, ?_, ?_, fun levels => ?_⟩,
    ⟨?_, ?_, fun levels => ?_⟩, operatorsEnd, fun p c hp => ?_, built_program.advances, parsingEnds⟩
  · exact itemsEnd_of_taking (consumes_accept_iff rfl) (steady_pure ())
  · exact itemsEnd_notAt _ (hstatement levels)
  · exact itemsEnd_notAt _ (hstatement levels)
  · exact itemsEnd_notAt _ moves_structField
  · exact itemsEnd_of_taking consumes_anotherElement_ne_nil moves_typeName.steady
  · exact itemsEnd_of_taking consumes_anotherElement_ne_nil (hexpression levels).steady
  · exact listEnds (moves_field _)
  · exact listEnds moves_binding
  · exact listEnds (hexpression levels)
  · obtain ⟨ls, hls⟩ := hp.exists_at
    exact typeName_eq hls

/-- Behind the name of the text `a;` there is a semicolon, and both are taken for a statement. -/
theorem parser_progresses_name :
    let p : Parser := ⟨⟨.identifier "a", 1, 1⟩,
      [.ok ⟨.semicolon, 1, 2⟩, .ok ⟨.endOfInput, 1, 3⟩], .empty 8⟩
    p.StandsAt ⟨[';'], 1, 1, 2⟩ ∧
      (∃ stmt q, (level 1).statement p = .ok stmt q ∧ q.current.kind = .endOfInput ∧
        ∃ taken, taken ≠ [] ∧ p.tokens = taken ++ q.tokens) ∧
      ∃ n ≤ 2, (itemLoop (notAt .endOfInput) (level 1).statement).Runs [] p n
        (many (notAt .endOfInput) (level 1).statement p) := by
  intro p
  have hp : p.StandsAt ⟨[';'], 1, 1, 2⟩ := by
    refine ⟨?_, nofun⟩
    rw [Cursor.scan, Cursor.scan]
    decide
  obtain ⟨hprogresses, ⟨-, hloop, -⟩, -⟩ := parser_progresses
  obtain ⟨stmt, q, hrun, hend⟩ : ∃ stmt q, (level 1).statement p = .ok stmt q ∧
      q.current.kind = .endOfInput := ⟨_, _, rfl, rfl⟩
  have htakes := (hprogresses (.statement 1)).takes p _ hp stmt q hrun
  exact ⟨hp, ⟨stmt, q, hrun, hend, htakes⟩, hloop 1 p _ hp⟩

end Parse

end WasmCompiler
