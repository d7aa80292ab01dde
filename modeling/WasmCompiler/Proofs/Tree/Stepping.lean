import Mathlib.Logic.Relation
import WasmCompiler.Proofs.Token.Tiling
import WasmCompiler.Proofs.Tree.Consumption
import WasmCompiler.Proofs.Tree.Operations

/-!
# The parser and its place in the text

A parser holds the lexemes that are left. A parser that reads them one at a time holds a place in
the text instead: `Parser.StandsAt p c` says that this place is `c`. What a parser does is a
sequence of steps on the two (`Step`): it reads on to the next token or to an error, or puts a
literal into the pool. Every run of an operation is such a sequence, whatever becomes of it
(`Built.exists_steps`), and as no step turns back, the place never moves back (`Steps.reads`).

The lexemes of a parser are those that a scan from its place gives (`Parser.StandsAt`), and
`Step.standsAt` shows that every step keeps it so. `standsAt_of_start` is the beginning.
-/

namespace WasmCompiler

variable {p q : Parser} {c d : Cursor}

/-! ### Reading on

Places in a text and the order in which they are come to. -/

/-- A cursor moves from one place to another by reading the characters between them. -/
def Cursor.Reads (c d : Cursor) : Prop :=
  ∃ read, c.rest = read ++ d.rest ∧ d.position = c.position.afterAll read

theorem Cursor.Reads.refl (c : Cursor) : c.Reads c :=
  ⟨[], rfl, rfl⟩

theorem Cursor.Reads.trans {e : Cursor} (h : c.Reads d) (h' : d.Reads e) : c.Reads e := by
  obtain ⟨read, hrest, hposition⟩ := h
  obtain ⟨read', hrest', hposition'⟩ := h'
  refine ⟨read ++ read', by rw [hrest, hrest', List.append_assoc], ?_⟩
  rw [hposition', hposition, Position.afterAll_append]

/-- To read is to move forward. -/
theorem Cursor.Reads.offset_le (h : c.Reads d) : c.position.offset ≤ d.position.offset := by
  obtain ⟨read, -, hposition⟩ := h
  rw [hposition, Position.offset_afterAll]
  omega

namespace Cursor

/-- The place of the next token is behind a gap. -/
theorem exists_skip_eq (c : Cursor) : ∃ gap rest, c.rest = gap ++ rest ∧ EndsGap rest ∧
    c.skip = ⟨rest, c.position.afterAll gap⟩ := by
  obtain ⟨gap, rest, hsplit, hgap, hrest⟩ := exists_isGap c.rest
  refine ⟨gap, rest, hsplit, hrest, ?_⟩
  rw [skip, hsplit]
  exact hgap.skipBlanks_eq hrest _

theorem skip_skip (c : Cursor) : c.skip.skip = c.skip := by
  obtain ⟨gap, rest, -, hrest, hskip⟩ := c.exists_skip_eq
  rw [hskip]
  exact IsGap.nil.skipBlanks_eq hrest _

/-- The next token is the same from before the gap. -/
theorem next_skip (c : Cursor) : c.skip.next = c.next := by
  simp only [next, skip_skip]

theorem reads_skip (c : Cursor) : c.Reads c.skip := by
  obtain ⟨gap, rest, hsplit, -, hskip⟩ := c.exists_skip_eq
  rw [hskip]
  exact ⟨gap, hsplit, rfl⟩

/-- A number of characters are read, or as many as there are. -/
theorem reads_advance (c : Cursor) (count : Nat) : c.Reads (c.advance count) :=
  ⟨c.rest.take count, (List.take_append_drop count c.rest).symm, rfl⟩

/-- The next token is read together with the gap before it. -/
theorem reads_next (c : Cursor) : c.Reads c.next.2 := by
  refine c.reads_skip.trans ?_
  simp only [next]
  split
  · exact .refl _
  · exact reads_advance _ _

/-- Where a gap ends and yet nothing more can be read, there is an illegal character: no token is
spelled as the end of the text. -/
theorem eq_illegal_of_isLast {ch : Char} {cs : List Char} {p : Position}
    (hcs : EndsGap (ch :: cs)) (h : isLast ((spell ch cs).lexeme ch p) = true) :
    spell ch cs = .illegal := by
  cases hspell : spell ch cs with
  | illegal => rfl
  | overflow digits =>
    rw [hspell] at h
    cases h
  | token kind n =>
    have hkind : kind = .endOfInput := by simpa [hspell, Spelling.lexeme, isLast] using h
    -- no lexeme spells the end of the text, and no fault has a token
    obtain ⟨kind', lexeme, rest, hsplit, hlexeme⟩ | hfault := exists_piece hcs
    · obtain ⟨-, d, ds, hhead, hspell'⟩ := hlexeme.spells
      obtain ⟨rfl, rfl⟩ := List.cons.inj (hsplit.trans hhead)
      rw [hspell] at hspell'
      obtain ⟨rfl, -⟩ := Spelling.token.inj hspell'
      exact absurd hkind hlexeme.ne_endOfInput
    · obtain ⟨e, hfault⟩ := hfault []
      obtain ⟨d, spelling, -, ⟨-, d', ds, hhead, hspell'⟩, herror⟩ := hfault.spells
      obtain ⟨rfl, rfl⟩ := List.cons.inj hhead
      rw [← hspell', hspell] at herror
      cases herror

/-- The last lexeme takes no characters. -/
theorem next_of_isLast (h : isLast c.next.1 = true) : c.next.2 = c.skip := by
  obtain ⟨gap, rest, -, hends, hskip⟩ := c.exists_skip_eq
  simp only [next, hskip] at h ⊢
  split at h
  · rfl
  · rw [eq_illegal_of_isLast hends h]
    rfl

/-- Reading on after the last lexeme gives it again. -/
theorem scan_next (c : Cursor) :
    c.next.2.scan.map (·.1) = Parse.dropLexeme (c.scan.map (·.1)) := by
  by_cases h : isLast c.next.1 = true
  · have hlast : c.scan = [c.next] := by
      rw [Cursor.scan]
      exact if_pos h
    have hagain : c.skip.scan = [c.next] := by
      rw [Cursor.scan, next_skip]
      exact if_pos h
    rw [next_of_isLast h, hlast, hagain]
    rfl
  · have hmore : c.scan = c.next :: c.next.2.scan := by
      rw [Cursor.scan]
      exact if_neg h
    rw [hmore, List.map_cons, (isScan_scan _).dropLexeme_cons]

/-- The first lexeme from a place on is the next one. -/
theorem head?_scan (c : Cursor) : (c.scan.map (·.1)).head? = some c.next.1 := by
  rw [Cursor.scan]
  split <;> rfl

/-- Nothing follows the last lexeme. -/
theorem scan_of_isLast (h : isLast c.next.1 = true) : c.scan.map (·.1) = [c.next.1] := by
  rw [Cursor.scan]
  simp only [h, if_true, List.map_cons, List.map_nil]

end Cursor

/-! ### Where a parser stands

The lexemes that a parser holds, as what is left of a text. -/

/-- A parser that has read up to a place: the lexemes from there on are those after its current
token. At the end of the text its current token is all that follows. -/
structure Parser.StandsAt (p : Parser) (c : Cursor) : Prop where
  upcoming : p.upcoming = c.scan.map (·.1)
  ended : p.current.kind = .endOfInput → p.upcoming = [.ok p.current]

/-- The lexemes from a place on form a scan. -/
theorem Parser.StandsAt.exists_at (h : p.StandsAt c) : ∃ ls, p.At ls := by
  have hscan : IsScan p.upcoming := h.upcoming ▸ c.isScan_scan
  by_cases hend : p.current.kind = .endOfInput
  · refine ⟨[.ok p.current], .last (by simpa [Cursor.isLast] using hend), rfl, ?_⟩
    rw [h.ended hend]
    rfl
  · exact ⟨.ok p.current :: p.upcoming, .cons (by simpa [Cursor.isLast] using hend) hscan, rfl,
      (hscan.dropLexeme_cons _).symm⟩

namespace Parse

/-- A parser begins behind the first token of its text. -/
theorem standsAt_of_start {text : String} {pool : StringPool} (h : start text pool = .ok p) :
    p.StandsAt (Cursor.ofString text).next.2 := by
  have hnext := Cursor.scan_next (Cursor.ofString text)
  have hhead := Cursor.head?_scan (Cursor.ofString text)
  unfold start lexemes at h
  split at h
  · rename_i hnil
    rw [hnil] at hhead
    cases hhead
  · cases h
  · rename_i token rest hlexemes
    obtain rfl := Except.ok.inj h
    rw [hlexemes] at hnext hhead
    refine ⟨hnext.symm, fun hend => ?_⟩
    -- a text without tokens is scanned to its end alone
    have htoken : (Cursor.ofString text).next.1 = .ok token := (Option.some.inj hhead).symm
    have hlast : Cursor.isLast (Cursor.ofString text).next.1 = true := by
      rw [htoken]
      simpa [Cursor.isLast] using hend
    rw [Cursor.scan_of_isLast hlast, htoken] at hlexemes
    dsimp only
    rw [← hlexemes]
    rfl

/-! ### Steps

What a parser does between two states, one token or one literal at a time. -/

/-- What a parser can do, with its place in the text: it takes a token and reads the next one,
fails to read it, or puts a literal into the pool. -/
inductive Step : Parser × Cursor → Parser × Cursor → Prop where
  | token {p : Parser} {c : Cursor} {next : Token} (hnext : c.next.1 = .ok next) :
      Step (p, c) ({ p with current := next, upcoming := dropLexeme p.upcoming }, c.next.2)
  | error {p : Parser} {c : Cursor} {e : LexError} (hnext : c.next.1 = .error e) :
      Step (p, c) ({ p with upcoming := dropLexeme p.upcoming }, c.next.2)
  | literal {p : Parser} {c : Cursor} {text : String} {offset : Nat} {strings : StringPool}
      (hintern : p.strings.intern? text = some (offset, strings)) :
      Step (p, c) ({ p with strings }, c)

/-- Any number of steps. -/
def Steps : Parser × Cursor → Parser × Cursor → Prop :=
  Relation.ReflTransGen Step

/-- A step leaves the parser at the place that it moves to. -/
theorem Step.standsAt (h : Step (p, c) (q, d)) (hp : p.StandsAt c) : q.StandsAt d := by
  have hupcoming : dropLexeme p.upcoming = c.next.2.scan.map (·.1) := by
    rw [hp.upcoming, Cursor.scan_next]
  cases h with
  | @token _ _ next hnext =>
    refine ⟨hupcoming, fun hend => ?_⟩
    have hlast : Cursor.isLast c.next.1 = true := by
      rw [hnext]
      simpa [Cursor.isLast] using hend
    dsimp only
    rw [hp.upcoming, Cursor.scan_of_isLast hlast, hnext]
    rfl
  | error hnext =>
    refine ⟨hupcoming, fun hend => ?_⟩
    -- after the end of the text there is no error
    have hhead := c.head?_scan
    rw [← hp.upcoming, hp.ended hend, hnext] at hhead
    cases hhead
  | literal => exact ⟨hp.upcoming, hp.ended⟩

/-- The place moves over a token and the gap before it, or stays. -/
theorem Step.reads (h : Step (p, c) (q, d)) : c.Reads d := by
  cases h with
  | token | error => exact c.reads_next
  | literal => exact .refl c

theorem Steps.standsAt (h : Steps (p, c) (q, d)) (hp : p.StandsAt c) : q.StandsAt d := by
  suffices hkept : ∀ s s', Steps s s' → s.1.StandsAt s.2 → s'.1.StandsAt s'.2 from
    hkept _ _ h hp
  intro s s' hsteps hs
  induction hsteps with
  | refl => exact hs
  | tail _ hstep ih => exact hstep.standsAt ih

/-- The place in the text never moves back. -/
theorem Steps.reads (h : Steps (p, c) (q, d)) : c.Reads d := by
  suffices hkept : ∀ s s', Steps s s' → s.2.Reads s'.2 from hkept _ _ h
  intro s s' hsteps
  induction hsteps with
  | refl => exact .refl _
  | tail _ hstep ih => exact ih.trans hstep.reads

/-! ### Runs

Operations as sequences of steps. -/

variable {α β : Type}

/-- The state in which an operation ends, with a result or with an error. -/
def finalState (m : ParseM α) (p : Parser) : Parser :=
  match m p with
  | .ok _ q => q
  | .error _ q => q

theorem finalState_of_ok {m : ParseM α} {a : α} (h : m p = .ok a q) : finalState m p = q := by
  rw [finalState, h]

theorem finalState_of_error {m : ParseM α} {e : ParseError} (h : m p = .error e q) :
    finalState m p = q := by
  rw [finalState, h]

/-- Taking a token is one step, whether the next one can be read or not. -/
theorem exists_step_advance (hp : p.StandsAt c) : ∃ d, Step (p, c) (finalState advance p, d) := by
  have hhead := c.head?_scan
  rw [← hp.upcoming] at hhead
  unfold finalState advance
  split
  · rename_i hupcoming
    split at hupcoming
    · rename_i hnil
      rw [hnil] at hhead
      cases hhead
    · rename_i next rest hcons
      obtain ⟨-, rfl⟩ := EStateM.Result.ok.inj hupcoming
      rw [hcons] at hhead
      exact ⟨c.next.2, .token (Option.some.inj hhead).symm⟩
    · cases hupcoming
  · rename_i hupcoming
    split at hupcoming
    · cases hupcoming
    · cases hupcoming
    · rename_i e rest hcons
      obtain ⟨-, rfl⟩ := EStateM.Result.error.inj hupcoming
      rw [hcons] at hhead
      exact ⟨c.next.2, .error (Option.some.inj hhead).symm⟩

/-- Every run is a sequence of steps, whether it succeeds or fails. -/
theorem Built.exists_steps {m : ParseM α} (hm : Built m) (hp : p.StandsAt c) :
    ∃ d, Steps (p, c) (finalState m p, d) := by
  induction hm generalizing p c with
  | pure | throw | peek | rounds => exact ⟨c, .refl⟩
  | advance =>
    obtain ⟨d, hstep⟩ := exists_step_advance hp
    exact ⟨d, .single hstep⟩
  | intern text location =>
    unfold finalState Parse.intern
    cases hintern : p.strings.intern? text with
    | none => exact ⟨c, .refl⟩
    | some entry => exact ⟨c, .single (.literal hintern)⟩
  | @bind α β m f _ _ ihm ihf =>
    obtain ⟨d, hsteps⟩ := ihm hp
    cases hrun : m p with
    | error e q =>
      rw [finalState_of_error hrun] at hsteps
      rw [finalState_of_error (EStateM.bind_of_error hrun)]
      exact ⟨d, hsteps⟩
    | ok a q =>
      -- the rest runs from where the first operation ended
      rw [finalState_of_ok hrun] at hsteps
      obtain ⟨e, hrest⟩ := ihf a (hsteps.standsAt hp)
      have hfinal : finalState (m >>= f) p = finalState (f a) q := by
        unfold finalState
        rw [EStateM.bind_of_ok hrun]
      rw [hfinal]
      exact ⟨e, hsteps.trans hrest⟩

end Parse

end WasmCompiler
