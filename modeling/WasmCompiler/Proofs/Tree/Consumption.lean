import WasmCompiler.Proofs.Tree.Parsing
import WasmCompiler.Proofs.Tree.Reading

/-!
# The tokens that a parser takes

`Parser.At p ls` says that a parser of some text has the lexemes `ls` before it. `Consumes m ls Q`
says that the operation `m`, if it succeeds there, takes tokens from the front of `ls`, one after
another and none of them twice, that exactly the strings among them are put into the pool, and
that `Q` relates these tokens, the lexemes that are left and the result.

The lemmas execute an operation on a list of lexemes: each one says what is left to be shown once
the first step has been made. A repetition has enough rounds because each of them takes a token
(`consumes_many`, `consumes_commaSeparated`).

* `consumes_expect`, `consumes_accept` and their kin take or look at one token.
* `Consumes.bind` is how longer parsers follow: what the first step took is put before what the
  second takes.
* Strings have a step of their own (`consumes_advance_intern`), as they are taken and put into the
  pool at once.
-/

namespace WasmCompiler

open TokenKind (texts)

/-- Two lists of texts are interned one after the other. -/
theorem StringPool.internAll?_append (pool : StringPool) (before after : List String) :
    pool.internAll? (before ++ after) = (pool.internAll? before).bind (·.internAll? after) := by
  induction before generalizing pool with
  | nil => rfl
  | cons text before ih =>
    rw [List.cons_append, internAll?, internAll?]
    cases pool.intern? text with
    | none => rfl
    | some entry => exact ih entry.2

/-! ### Lexemes of a text

A parser keeps the current token and the lexemes behind it. The last lexeme is never dropped, so
both tell what is left. -/

/-- Lexemes as reading gives them: there is a last one, and no other is one that nothing
follows. -/
inductive IsScan : List Lexeme → Prop where
  | last {lexeme : Lexeme} (h : Cursor.isLast lexeme = true) : IsScan [lexeme]
  | cons {lexeme : Lexeme} {ls : List Lexeme} (h : Cursor.isLast lexeme = false)
      (hls : IsScan ls) : IsScan (lexeme :: ls)

/-- Reading stops at the first lexeme that nothing follows. -/
theorem Cursor.isScan_scan (c : Cursor) : IsScan (c.scan.map (·.1)) := by
  induction c using Cursor.scan.induct with
  | case1 c step h =>
    rw [Cursor.scan, if_pos h]
    exact .last h
  | case2 c step h ih =>
    rw [Cursor.scan, if_neg h]
    exact .cons (by simpa using h) ih

theorem isScan_lexemes (text : String) : IsScan (lexemes text) :=
  Cursor.isScan_scan _

/-- The lexemes from the current token of a parser on. -/
structure Parser.At (p : Parser) (ls : List Lexeme) : Prop where
  isScan : IsScan ls
  current : ls.head? = some (.ok p.current)
  upcoming : p.upcoming = Parse.dropLexeme ls

variable {ls more : List Lexeme} {token : Token} {p p' : Parser}

/-- There is a current token as long as there is a parser. -/
theorem Parser.At.eq_cons (h : p.At ls) : ∃ more, ls = .ok p.current :: more := by
  cases ls with
  | nil => exact absurd h.current (by simp)
  | cons lexeme more => exact ⟨more, by rw [Option.some.inj h.current]⟩

theorem Parser.At.current_eq (h : p.At (.ok token :: more)) : p.current = token :=
  (Except.ok.inj (Option.some.inj h.current)).symm

/-- Every lexeme but the last can be dropped. -/
theorem IsScan.dropLexeme_cons (h : IsScan more) (lexeme : Lexeme) :
    Parse.dropLexeme (lexeme :: more) = more := by
  cases h <;> rfl

/-- The current token and those after it tell what is left: the last lexeme is known as such. -/
theorem Parser.At.unique {ls' : List Lexeme} (h : p.At ls) (h' : p.At ls') : ls = ls' := by
  obtain ⟨more, rfl⟩ := h.eq_cons
  obtain ⟨more', rfl⟩ := h'.eq_cons
  have hupcoming := h.upcoming.symm.trans h'.upcoming
  cases h.isScan with
  | last hlast =>
    cases h'.isScan with
    | last => rfl
    | cons hother => rw [hlast] at hother; cases hother
  | cons hother hmore =>
    cases h'.isScan with
    | last hlast => rw [hlast] at hother; cases hother
    | cons _ hmore' =>
      rw [hmore.dropLexeme_cons, hmore'.dropLexeme_cons] at hupcoming
      rw [hupcoming]

namespace Parse

/-- A parser at the beginning of a text has all its lexemes before it. -/
theorem at_of_start {text : String} {pool : StringPool} (h : start text pool = .ok p) :
    p.At (lexemes text) ∧ p.strings = pool := by
  have hscan := isScan_lexemes text
  unfold start at h
  split at h
  · rename_i hnil
    rw [hnil] at hscan
    cases hscan
  · cases h
  · rename_i token rest hlexemes
    obtain rfl := Except.ok.inj h
    exact ⟨⟨hscan, by rw [hlexemes]; rfl, by rw [hlexemes]⟩, rfl⟩

/-- Taking a token goes on to the next lexeme. -/
theorem at_of_advance (h : p.At (.ok token :: more)) (htoken : token.kind ≠ .endOfInput)
    {taken : Token} (hrun : advance p = .ok taken p') :
    taken = token ∧ p'.At more ∧ p'.strings = p.strings := by
  have hcurrent := h.current_eq
  have hupcoming := h.upcoming
  cases h.isScan with
  | last hlast => exact absurd (by simpa [Cursor.isLast] using hlast) htoken
  | cons _ hmore =>
    -- something follows, so the token is not repeated
    cases more with
    | nil => cases hmore
    | cons next rest =>
      rw [dropLexeme.eq_3 _ _ (by simp)] at hupcoming
      unfold advance at hrun
      rw [hupcoming] at hrun
      cases next with
      | error e => cases hrun
      | ok next =>
        obtain ⟨rfl, rfl⟩ := EStateM.Result.ok.inj hrun
        exact ⟨hcurrent, ⟨hmore, rfl, rfl⟩, rfl⟩

theorem length_le_of_dropLexeme (ls : List Lexeme) : ls.length ≤ (dropLexeme ls).length + 1 := by
  unfold dropLexeme
  split <;> simp

/-! ### Executing operations

The lexemes are an argument, so that a proof goes along them as the parser does. -/

variable {α β : Type} {Q : List Token → List Lexeme → α → Prop}
  {R : List Token → List Lexeme → β → Prop}

/-- With the lexemes `ls` before it the operation takes tokens off their front, and its result is
related to these and to the lexemes left. -/
def Consumes (m : ParseM α) (ls : List Lexeme) (Q : List Token → List Lexeme → α → Prop) : Prop :=
  ∀ p p' a, p.At ls → m p = .ok a p' →
    ∃ tokens rest, ls = tokens.map .ok ++ rest ∧ p'.At rest ∧
      p.strings.internAll? (texts (tokens.map (·.kind))) = some p'.strings ∧ Q tokens rest a

theorem consumes_pure {a : α} (h : Q [] ls a) : Consumes (pure a) ls Q := by
  intro p p' b hp hrun
  obtain ⟨rfl, rfl⟩ := EStateM.pure_eq_ok_iff.mp hrun
  exact ⟨[], ls, rfl, hp, rfl, h⟩

theorem consumes_throw {e : ParseError} : Consumes (throw e : ParseM α) ls Q :=
  fun _ _ _ _ hrun => absurd hrun EStateM.throw_ne_ok

theorem Consumes.weaken {Q' : List Token → List Lexeme → α → Prop} {m : ParseM α}
    (hm : Consumes m ls Q) (h : ∀ tokens rest a, Q tokens rest a → Q' tokens rest a) :
    Consumes m ls Q' := by
  intro p p' a hp hrun
  obtain ⟨tokens, rest, hls, hp', hstrings, hQ⟩ := hm p p' a hp hrun
  exact ⟨tokens, rest, hls, hp', hstrings, h _ _ _ hQ⟩

/-- Two relations that were shown one by one hold together, as the tokens that are taken are the
same. -/
theorem Consumes.and {Q' : List Token → List Lexeme → α → Prop} {m : ParseM α}
    (hm : Consumes m ls Q) (hm' : Consumes m ls Q') :
    Consumes m ls fun tokens rest a => Q tokens rest a ∧ Q' tokens rest a := by
  intro p p' a hp hrun
  obtain ⟨tokens, rest, hls, hp', hstrings, hQ⟩ := hm p p' a hp hrun
  obtain ⟨tokens', rest', hls', hp'', -, hQ'⟩ := hm' p p' a hp hrun
  -- what is left is the same, so the tokens that were taken are
  obtain rfl := hp'.unique hp''
  have htokens : tokens.map Except.ok = tokens'.map Except.ok :=
    List.append_cancel_right (hls.symm.trans hls')
  obtain rfl := (List.map_inj_right fun _ _ => Except.ok.inj).mp htokens
  exact ⟨tokens, rest, hls, hp', hstrings, hQ, hQ'⟩

/-- The tokens of a sequence are those of the first operation and then those of the second, which
runs on what the first one left. -/
theorem Consumes.bind {m : ParseM α} {f : α → ParseM β} (hm : Consumes m ls Q)
    (hf : ∀ tokens rest a, ls = tokens.map .ok ++ rest → Q tokens rest a →
      Consumes (f a) rest fun others => R (tokens ++ others)) : Consumes (m >>= f) ls R := by
  intro p p' b hp hrun
  obtain ⟨a, q, hfirst, hsecond⟩ := EStateM.bind_eq_ok_iff.mp hrun
  obtain ⟨tokens, middle, hls, hq, hstrings, hQ⟩ := hm p q a hp hfirst
  obtain ⟨others, rest, rfl, hp', hstrings', hR⟩ :=
    hf tokens middle a hls hQ q p' b hq hsecond
  refine ⟨tokens ++ others, rest, by simp [hls], hp', ?_, hR⟩
  rw [List.map_append, texts, List.filterMap_append, StringPool.internAll?_append, ← texts,
    hstrings]
  exact hstrings'

theorem Consumes.map {m : ParseM α} {f : α → β}
    (hm : Consumes m ls fun tokens rest a => R tokens rest (f a)) :
    Consumes (f <$> m) ls R := by
  intro p p' b hp hrun
  obtain ⟨a, hfirst, rfl⟩ := EStateM.map_eq_ok_iff.mp hrun
  exact hm p p' a hp hfirst

/-- The condition is known in each branch. -/
theorem Consumes.ite {c : Prop} [Decidable c] {m m' : ParseM α} (hm : c → Consumes m ls Q)
    (hm' : ¬c → Consumes m' ls Q) : Consumes (if c then m else m') ls Q := by
  split
  · exact hm ‹_›
  · exact hm' ‹_›

/-! ### Tokens

Each lemma takes the operation and what follows it, since what is left of the text is known only
then. -/

/-- A parser is always at a token. -/
theorem consumes_of_cons {m : ParseM α}
    (h : ∀ token more, ls = .ok token :: more → Consumes m ls Q) : Consumes m ls Q := by
  intro p p' a hp hrun
  obtain ⟨more, hls⟩ := hp.eq_cons
  exact h _ _ hls p p' a hp hrun

/-- Looking at the current token takes nothing. -/
theorem consumes_peek {f : Token → ParseM β} (hf : Consumes (f token) (.ok token :: more) R) :
    Consumes (peek >>= f) (.ok token :: more) R := by
  intro p p' b hp hrun
  have hcurrent := hp.current_eq
  exact hf p p' b hp (hcurrent ▸ hrun)

theorem consumes_check {wanted : TokenKind} {f : Bool → ParseM β}
    (hf : Consumes (f (decide (token.kind = wanted))) (.ok token :: more) R) :
    Consumes (check wanted >>= f) (.ok token :: more) R := by
  intro p p' b hp hrun
  have hcurrent := hp.current_eq
  exact hf p p' b hp (hcurrent ▸ hrun)

/-- Whether a token of the kind can be taken on its own: it is neither a string nor the end. -/
def isPlain : TokenKind → Bool
  | .string _ | .endOfInput => false
  | _ => true

/-- What is not plain cannot be taken without a step of its own. -/
theorem isPlain_iff {kind : TokenKind} :
    isPlain kind ↔ kind ≠ .endOfInput ∧ kind.text? = none := by
  cases kind <;> simp [isPlain, TokenKind.text?]

/-- Taking a token puts it in front of what is taken later. -/
theorem consumes_advance {f : Token → ParseM β} (hplain : isPlain token.kind)
    (hf : Consumes (f token) more fun others => R (token :: others)) :
    Consumes (advance >>= f) (.ok token :: more) R := by
  intro p p' b hp hrun
  obtain ⟨hend, htext⟩ := isPlain_iff.mp hplain
  obtain ⟨taken, q, hfirst, hsecond⟩ := EStateM.bind_eq_ok_iff.mp hrun
  obtain ⟨rfl, hq, hstrings⟩ := at_of_advance hp hend hfirst
  obtain ⟨others, rest, rfl, hp', hstrings', hR⟩ := hf q p' b hq hsecond
  refine ⟨taken :: others, rest, rfl, hp', ?_, hR⟩
  rw [List.map_cons, texts, List.filterMap_cons_none htext, ← hstrings]
  exact hstrings'

/-- A string that is taken goes into the pool. -/
theorem consumes_advance_intern {f : Token → ParseM β} {g : Unit → ParseM β} {text : String}
    {location : Location} (htext : token.kind = .string text)
    (hf : f token = intern text location >>= g)
    (hg : Consumes (g ()) more fun others => R (token :: others)) :
    Consumes (advance >>= f) (.ok token :: more) R := by
  intro p p' b hp hrun
  obtain ⟨taken, q, hfirst, hsecond⟩ := EStateM.bind_eq_ok_iff.mp hrun
  obtain ⟨rfl, hq, hstrings⟩ := at_of_advance hp (by simp [htext]) hfirst
  rw [hf] at hsecond
  obtain ⟨_, q', hintern, hrest⟩ := EStateM.bind_eq_ok_iff.mp hsecond
  unfold intern at hintern
  split at hintern
  · rename_i offset strings hpool
    obtain ⟨-, rfl⟩ := EStateM.Result.ok.inj hintern
    -- the text is added to the pool right when its token is taken
    obtain ⟨others, rest, rfl, hp', hstrings', hR⟩ :=
      hg { q with strings } p' b ⟨hq.isScan, hq.current, hq.upcoming⟩ hrest
    refine ⟨taken :: others, rest, rfl, hp', ?_, hR⟩
    have htexts : TokenKind.text? taken.kind = some text := by rw [htext]; rfl
    rw [List.map_cons, texts, List.filterMap_cons_some htexts, StringPool.internAll?, ← hstrings,
      hpool]
    exact hstrings'
  · cases hintern

/-- A token that is not wanted is an error, also if it has been taken. -/
theorem consumes_advance_throw {f : Token → ParseM β} {e : ParseError} (hf : f token = throw e) :
    Consumes (advance >>= f) (.ok token :: more) R := by
  intro p p' b hp hrun
  obtain ⟨taken, q, hfirst, hsecond⟩ := EStateM.bind_eq_ok_iff.mp hrun
  have htaken : taken = token := (strings_advance hfirst).1.trans hp.current_eq
  rw [htaken, hf] at hsecond
  exact absurd hsecond EStateM.throw_ne_ok

theorem consumes_fail {what : Malformed} : Consumes (fail what : ParseM α) ls Q :=
  consumes_of_cons fun _ _ hls => hls ▸ consumes_peek consumes_throw

theorem consumes_unexpected {wanted : Wanted} : Consumes (unexpected wanted : ParseM α) ls Q :=
  consumes_of_cons fun _ _ hls => hls ▸ consumes_peek consumes_throw

/-- If the token that is wanted is there, it is taken; otherwise nothing is to be shown. -/
theorem consumes_expect {wanted : TokenKind} {f : Token → ParseM β} (hplain : isPlain wanted)
    (hf : ∀ token more, ls = .ok token :: more → token.kind = wanted →
      Consumes (f token) more fun others => R (token :: others)) :
    Consumes (expect wanted >>= f) ls R := by
  refine consumes_of_cons fun token more hls => ?_
  have hrest := hf token more hls
  subst hls
  simp only [expect, bind_assoc]
  refine consumes_check ?_
  by_cases hkind : token.kind = wanted
  · simp only [hkind, decide_true, if_true]
    exact consumes_advance (hkind ▸ hplain) (hrest hkind)
  · simp only [hkind, decide_false, Bool.false_eq_true, if_false]
    exact Consumes.bind (Q := fun _ _ _ => False) consumes_unexpected fun _ _ _ _ h => h.elim

/-- The name that is given is that of the token. -/
theorem consumes_expectName {wanted : Wanted} {f : String × Location → ParseM β}
    (hf : ∀ token more name, ls = .ok token :: more → token.kind = .identifier name →
      Consumes (f (name, token.location)) more fun others => R (token :: others)) :
    Consumes (expectName wanted >>= f) ls R := by
  refine consumes_of_cons fun token more hls => ?_
  have hrest := hf token more
  subst hls
  simp only [expectName, bind_assoc]
  refine consumes_peek ?_
  split
  · rename_i name hkind
    simp only [bind_assoc, pure_bind]
    exact consumes_advance (by rw [hkind]; rfl) (hrest name rfl hkind)
  · exact Consumes.bind (Q := fun _ _ _ => False) consumes_unexpected fun _ _ _ _ h => h.elim

/-- Both cases go on: with the token taken, or with nothing taken. -/
theorem consumes_accept {wanted : TokenKind} {f : Bool → ParseM β} (hplain : isPlain wanted)
    (hyes : ∀ token more, ls = .ok token :: more → token.kind = wanted →
      Consumes (f true) more fun others => R (token :: others))
    (hno : ∀ token more, ls = .ok token :: more → token.kind ≠ wanted → Consumes (f false) ls R) :
    Consumes (accept wanted >>= f) ls R := by
  refine consumes_of_cons fun token more hls => ?_
  have htaken := hyes token more hls
  have hleft := hno token more hls
  subst hls
  simp only [accept, bind_assoc]
  refine consumes_check ?_
  by_cases hkind : token.kind = wanted
  · simp only [hkind, decide_true, if_true, bind_assoc, pure_bind]
    exact consumes_advance (hkind ▸ hplain) (htaken hkind)
  · simp only [hkind, decide_false, Bool.false_eq_true, if_false, pure_bind]
    exact hleft hkind

/-! ### Repetition

Rounds are as many as lexemes, and every item takes one. -/

/-- There are as many rounds as lexemes left. -/
theorem consumes_rounds {f : Nat → ParseM β} (hf : ∀ n, ls.length ≤ n → Consumes (f n) ls R) :
    Consumes (rounds >>= f) ls R := by
  intro p p' b hp hrun
  refine hf (p.upcoming.length + 1) ?_ p p' b hp hrun
  rw [hp.upcoming]
  exact length_le_of_dropLexeme ls

/-- Items that each take a token, with what says that there is one. They end where that says
there is no more. -/
theorem consumes_many {more : ParseM Bool} {item : ParseM α}
    {M : List Token → List Lexeme → Bool → Prop} {R : List Token → List Lexeme → List α → Prop}
    (hmore : ∀ ls, Consumes more ls M) (hitem : ∀ ls, Consumes item ls Q)
    (hprogress : ∀ {before others rest rest' x}, M before rest true → Q others rest' x →
      before ++ others ≠ [])
    (hstop : ∀ {before rest}, M before rest false → R before rest [])
    (hstep : ∀ {before others after rest rest' rest'' x xs}, M before rest true →
      Q others rest' x → R after rest'' xs → R (before ++ (others ++ after)) rest'' (x :: xs))
    (ls : List Lexeme) : Consumes (many more item) ls R := by
  suffices hrounds : ∀ n ls, ls.length ≤ n → Consumes (manyUpTo more item n) ls R from
    consumes_rounds fun n hn => hrounds n ls hn
  intro n
  induction n with
  | zero =>
    intro ls hn
    refine consumes_of_cons fun token more hls => ?_
    rw [hls] at hn
    exact absurd hn (by simp)
  | succ n ih =>
    intro ls hn
    refine (hmore ls).bind fun before middle another hls hM => ?_
    cases another with
    | false => exact consumes_pure (by simpa using hstop hM)
    | true =>
      rw [if_pos rfl]
      refine (hitem middle).bind fun others last x hmiddle hQ => ?_
      -- a round takes at least one token, so one round fewer is enough for the rest
      have hlength : last.length ≤ n := by
        have hpos := List.length_pos_iff.mpr (hprogress hM hQ)
        rw [hls, hmiddle] at hn
        simp only [List.length_append, List.length_map] at hn hpos
        omega
      refine (ih last hlength).bind fun after rest xs _ hR => consumes_pure ?_
      simpa using hstep hM hQ hR

/-- Items with commas between them. -/
theorem consumes_commaSeparated {item : ParseM α} {R : List Token → List Lexeme → List α → Prop}
    (hitem : ∀ ls, Consumes item ls Q)
    (hone : ∀ {others rest x}, Q others rest x → R others rest [x])
    (hstep : ∀ {others after rest rest' x xs comma}, Q others rest x → comma.kind = .comma →
      R after rest' xs → R (others ++ comma :: after) rest' (x :: xs))
    (ls : List Lexeme) : Consumes (commaSeparated item) ls R := by
  suffices hrounds : ∀ n ls, ls.length ≤ n → Consumes (commaSeparatedUpTo item n) ls R from
    consumes_rounds fun n hn => hrounds n ls hn
  intro n
  induction n with
  | zero =>
    intro ls hn
    refine consumes_of_cons fun token more hls => ?_
    rw [hls] at hn
    exact absurd hn (by simp)
  | succ n ih =>
    intro ls hn
    refine (hitem ls).bind fun others middle x hls hQ => ?_
    refine consumes_accept rfl (fun comma last hmiddle hcomma => ?_) fun _ _ _ _ => ?_
    · -- the comma alone pays for the next round
      have hlength : last.length ≤ n := by
        rw [hls, hmiddle] at hn
        simp only [List.length_append, List.length_map, List.length_cons] at hn
        omega
      refine (ih last hlength).bind fun after rest xs _ hR => consumes_pure ?_
      simpa using hstep hQ hcomma hR
    · exact consumes_pure (by simpa using hone hQ)

end Parse

end WasmCompiler
